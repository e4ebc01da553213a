/-
# Overwriting what a difference names

An instruction is carried out on a tree by putting the scalar of the new tree where the old one
stands (`overwrite`).  What that does is said by what is found at each path (`at?_overwrite`),
and not by how the tables on the way are rebuilt: the new scalar at the path of the instruction,
a table again on the way there, and the same as before everywhere else.

So one instruction carried out is one change less, and no other has come (`changes_overwrite`).
Carried out one after the other they leave nothing to change, if there was no structural change
(`difference_overwriteAll`).
-/
import TomlKeep.Proofs.ScalarLeaves
import TomlKeep.Proofs.StructuralChanges

namespace TomlKeep

/-! ## 1. One instruction

The path of an instruction cuts all other paths in three: those on the way to it, those through it,
and those beside it.  On the way there were tables and are tables; through it there is nothing,
before as after, since both values are scalars; beside it nothing changes.
-/

/-- The tree with the scalar of the new tree at the place that an instruction names. -/
def overwrite (new tree : Table) (i : Instruction) : Table :=
  match (Value.table new).at? i.path with
  | some value => updateAt (Keyed.insert i.key value) i.target.parts tree
  | none => tree

variable {new tree : Table} {i : Instruction}

/-- **What stands at a path of an overwritten tree:** the new scalar, a table on the way to it,
or what stood there before. -/
theorem at?_overwrite {v w : Value} (hv : (Value.table tree).at? i.path = some v)
    (hw : (Value.table new).at? i.path = some w) (hvs : v.isScalar = true) (hws : w.isScalar = true)
    (path : List String) :
    (path = i.path ∧ (Value.table (overwrite new tree i)).at? path = some w)
      ∨ (path ≠ i.path ∧ ∃ x y, (Value.table tree).at? path = some (.table x)
        ∧ (Value.table (overwrite new tree i)).at? path = some (.table y))
      ∨ (path ≠ i.path
        ∧ (Value.table (overwrite new tree i)).at? path = (Value.table tree).at? path) := by
  rw [overwrite, hw]
  -- on the way to the scalar: a table stood there, or the scalar would not have been found
  by_cases habove : path <+: i.target.parts
  · refine .inr (.inl ⟨?_, ?_⟩)
    · rintro rfl
      have hlength := habove.length_le
      simp [Instruction.path] at hlength
    · obtain ⟨y, hy⟩ : ∃ y,
          (Value.table (updateAt (Keyed.insert i.key w) i.target.parts tree)).at? path
            = some (.table y) := at?_updateAt_above _ habove
      obtain ⟨more, hmore⟩ := habove
      have hpath : i.path = path ++ (more ++ [i.key]) := by
        rw [Instruction.path, ← hmore, List.append_assoc]
      rw [hpath, at?_append] at hv
      obtain ⟨inner, hinner, hv⟩ := Option.bind_eq_some_iff.mp hv
      obtain ⟨x, hx, -⟩ := exists_table_of_at?_concat hv
      obtain ⟨outer, rfl⟩ := exists_table_of_at? hx
      exact ⟨outer, y, hinner, hy⟩
  -- at the scalar or below it, and otherwise beside it
  · by_cases hbelow : i.path <+: path
    · obtain ⟨more, rfl⟩ := hbelow
      have hat :
          (Value.table (updateAt (Keyed.insert i.key w) i.target.parts tree)).at? (i.path ++ more)
          = w.at? more := by
        rw [Instruction.path, List.append_assoc, List.singleton_append, at?_insertAt_self]
      rw [hat]
      cases more with
      | nil => exact .inl ⟨List.append_nil _, rfl⟩
      | cons key more =>
        -- nothing stands below a scalar, neither the old nor the new one
        have hne := List.cons_ne_nil key more
        refine .inr (.inr ⟨by simp, ?_⟩)
        rw [at?_append, hv, Option.bind_some, at?_of_isScalar hvs hne, at?_of_isScalar hws hne]
    · refine .inr (.inr ⟨?_, at?_insertAt_of_apart hbelow habove⟩)
      rintro rfl
      exact hbelow List.prefix_rfl

/-- Keys stay distinct. -/
theorem wellKeyed_overwrite (hn : (Value.table new).WellKeyed) (ht : (Value.table tree).WellKeyed) :
    (Value.table (overwrite new tree i)).WellKeyed := by
  rw [overwrite]
  split
  · next value hvalue =>
    exact wellKeyed_updateAt (fun _ he => wellKeyed_insert (hn.at? hvalue) he) ht
  · exact ht

/-- **One change less:** the others are as they were, and none has come.  A change needs a scalar
at its path, and an overwritten tree has scalars where the tree had them. -/
theorem changes_overwrite (hi : Changes [] (.table tree) (.table new) i) {j : Instruction} :
    Changes [] (.table (overwrite new tree i)) (.table new) j
      ↔ Changes [] (.table tree) (.table new) j ∧ j.path ≠ i.path := by
  obtain ⟨path, v, w, hp, hv, hw, before, hb, ha, -⟩ := hi
  obtain rfl : i.path = path := hp
  have hvs : v.isScalar = true := isScalar_iff_literal?.mpr ⟨before, hb⟩
  have hws : w.isScalar = true := isScalar_iff_literal?.mpr ⟨i.literal, ha⟩
  constructor
  · rintro ⟨path, v', w', hp, hv', hw', earlier, he, hl, hdiff⟩
    obtain rfl : j.path = path := hp
    -- at the path of the instruction both trees hold the new scalar now
    rcases at?_overwrite hv hw hvs hws j.path with ⟨heq, hat⟩ | ⟨-, x, y, -, hat⟩ | ⟨hne, hat⟩
    · rw [heq, hw] at hw'
      obtain rfl : w = v' := Option.some.inj (hat.symm.trans hv')
      obtain rfl : w = w' := Option.some.inj hw'
      exact absurd (Option.some.inj (he.symm.trans hl)) hdiff
    · obtain rfl := Option.some.inj (hat.symm.trans hv')
      cases he
    · exact ⟨⟨j.path, v', w', rfl, hat ▸ hv', hw', earlier, he, hl, hdiff⟩, hne⟩
  · rintro ⟨⟨path, v', w', hp, hv', hw', earlier, he, hl, hdiff⟩, hne⟩
    obtain rfl : j.path = path := hp
    rcases at?_overwrite hv hw hvs hws j.path with ⟨heq, -⟩ | ⟨-, x, y, hat, -⟩ | ⟨-, hat⟩
    · exact absurd heq hne
    · obtain rfl := Option.some.inj (hat.symm.trans hv')
      cases he
    · exact ⟨j.path, v', w', rfl, hat.trans hv', hw', earlier, he, hl, hdiff⟩

/-- **No structural change comes.**  Tables are where they were with the keys that they had, and
a scalar has taken the place of a scalar. -/
theorem structural_overwrite (hn : (Value.table new).WellKeyed) (ht : (Value.table tree).WellKeyed)
    (hi : Changes [] (.table tree) (.table new) i)
    (hs : (difference (.table tree) (.table new)).structural = []) :
    (difference (.table (overwrite new tree i)) (.table new)).structural = [] := by
  obtain ⟨path, v, w, hp, hv, hw, before, hb, ha, -⟩ := hi
  obtain rfl : i.path = path := hp
  have hvs : v.isScalar = true := isScalar_iff_literal?.mpr ⟨before, hb⟩
  have hws : w.isScalar = true := isScalar_iff_literal?.mpr ⟨i.literal, ha⟩
  have hat := at?_overwrite hv hw hvs hws
  rw [structural_eq_nil_iff ht] at hs
  rw [structural_eq_nil_iff (wellKeyed_overwrite hn ht)]
  intro path x y hx hy key
  obtain ⟨z, hz⟩ : ∃ z, (Value.table tree).at? path = some (.table z) := by
    rcases hat path with ⟨-, h⟩ | ⟨-, z, -, h, -⟩ | ⟨-, h⟩
    · obtain rfl := Option.some.inj (h.symm.trans hx)
      cases hws
    · exact ⟨z, h⟩
    · exact ⟨x, h.symm.trans hx⟩
  have hrel := hs path z y hz hy key
  rw [← at?_concat hz, ← at?_concat hy] at hrel
  rw [← at?_concat hx, ← at?_concat hy]
  rcases hat (path ++ [key]) with ⟨heq, h⟩ | ⟨-, a, b, ha, hb⟩ | ⟨-, h⟩
  · rw [h, heq, hw]
    exact .some (.inr (.inl ⟨hws, hws⟩))
  · -- what can be compared with a table is a table
    rw [ha] at hrel
    rw [hb]
    cases hfind : (Value.table new).at? (path ++ [key]) with
    | none =>
      rw [hfind] at hrel
      cases hrel
    | some value =>
      rw [hfind] at hrel
      obtain ⟨⟨-, c, -, rfl⟩ | ⟨h, -⟩ | h⟩ := hrel
      · exact .some (.inl ⟨b, c, rfl, rfl⟩)
      · cases h
      · cases value with
        | table c => exact .some (.inl ⟨b, c, rfl, rfl⟩)
        | _ => cases h
  · rw [h]
    exact hrel

/-! ## 2. All instructions

Each step takes one change away, and the list names every change once.  So the induction carries
three facts along: the tree has no structural change, no two instructions are for one place, and the
instructions are the changes that are left.
-/

/-- Carried out one after the other, instructions for all changes leave no difference. -/
theorem difference_foldl_overwrite (hn : (Value.table new).WellKeyed) :
    ∀ {is : List Instruction} {tree : Table}, (Value.table tree).WellKeyed →
      (difference (.table tree) (.table new)).structural = [] → (is.map Instruction.path).Nodup →
        (∀ j, j ∈ is ↔ Changes [] (.table tree) (.table new) j) →
          difference (.table (is.foldl (overwrite new) tree)) (.table new) = .empty
  -- no instruction is left, so no change is, and there is no difference
  | [], tree, ht, hs, _, his => by
    have hnone : (difference (.table tree) (.table new)).instructions = [] := by
      rw [List.eq_nil_iff_forall_not_mem]
      -- what is left to do is what was to be done, but for the first instruction
      intro j hj
      have hnil := (his j).mpr ((mem_difference ht).mp hj)
      cases hnil
    rw [List.foldl_nil, Difference.empty, ← hs, ← hnone]
  | i :: is, tree, ht, hs, hnodup, his => by
    obtain ⟨hfresh, hnodup⟩ := List.nodup_cons.mp hnodup
    have hi := (his i).mp List.mem_cons_self
    rw [List.foldl_cons]
    refine difference_foldl_overwrite hn (wellKeyed_overwrite hn ht)
      (structural_overwrite hn ht hi hs) hnodup ?_
    intro j
    rw [changes_overwrite hi, ← his j, List.mem_cons]
    constructor
    · intro hj
      refine ⟨.inr hj, fun heq => hfresh ?_⟩
      rw [← heq]
      exact List.mem_map.mpr ⟨j, hj, rfl⟩
    · rintro ⟨rfl | hj, hne⟩
      · exact absurd rfl hne
      · exact hj

/-- The old tree with the scalars of the new one wherever the difference has an instruction. -/
def overwriteAll (old new : Table) : Table :=
  (difference (.table old) (.table new)).instructions.foldl (overwrite new) old

/-- **Overwriting what a difference names leaves no difference,** unless it is structural. -/
theorem difference_overwriteAll {old new : Table} (ho : (Value.table old).WellKeyed)
    (hn : (Value.table new).WellKeyed)
    (hs : (difference (.table old) (.table new)).structural = []) :
    difference (.table (overwriteAll old new)) (.table new) = .empty :=
  difference_foldl_overwrite hn ho hs (nodup_path_instructions ho) fun _ => mem_difference ho

end TomlKeep
