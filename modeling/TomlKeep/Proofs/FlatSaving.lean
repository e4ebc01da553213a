/-
# Saving a flat document

If the tree of a flat document is saved with other scalars in its leaves, the text is the same
layout with the new literals in the place of the old ones, and nothing is ever written anew
(`reconcile_flat`).  For that the tree of a layout, the difference of trees and the search for
targets have to agree about every assignment:

* the scalars of the tree are the assignments, each at its path (`at?_tree`, `leaf_of_at?_tree`);
* the instructions are for the assignments whose literals differ (`mem_instructions`);
* filling in the literals of the instructions is revising the layout (`fill_pieces`).
-/
import TomlKeep.Proofs.FlatLayout
import TomlKeep.Proofs.ScalarLeaves
import TomlKeep.Proofs.StructuralChanges
import TomlKeep.Save

namespace TomlKeep

namespace FlatLayout

/-! ## 1. The tree of a layout

The tree is built line by line, so all here is by induction on the lines that are left, with the
current section and the table built so far.  A header only opens tables and an assignment puts in
one leaf; what they do not name stays as it is, and that no path is the beginning of another one
keeps each leaf to the end.
-/

/-- A section that is opened leaves everything but the tables on its path as it is. -/
theorem at?_open_of_not_above {path other : List String} {table : Table}
    (h : ¬ other <+: path) :
    (Value.table (updateAt id path table)).at? other = (Value.table table).at? other := by
  by_cases hp : path <+: other
  · obtain ⟨rest, rfl⟩ := hp
    have hr : rest ≠ [] := by
      rintro rfl
      exact h (by simp)
    rw [at?_updateAt, id, at?_subtable hr]
  · exact at?_updateAt_of_apart _ hp h

/-- The lines that are left do not change what they do not name.  For a header that is a path at
or above its own, for an assignment a path above its section or at and below its leaf. -/
theorem at?_build_of_apart {path : List String} : ∀ {d : FlatLayout} {current : List String}
    {table : Table}, (∀ other ∈ headers d, ¬ path <+: other) →
      (∀ leaf ∈ leaves current d, ¬ leaf.path <+: path ∧ ¬ path <+: leaf.place) →
        (Value.table (build current table d)).at? path = (Value.table table).at? path
  | [], _, _, _, _ => rfl
  | ⟨.blank _, _⟩ :: rest, _, _, hh, hl | ⟨.remark _ _, _⟩ :: rest, _, _, hh, hl =>
    at?_build_of_apart (d := rest) hh hl
  | ⟨.header _ parts _ _, _⟩ :: rest, current, table, hh, hl => by
    have ih : (Value.table (build (pathOf parts) (updateAt id (pathOf parts) table) rest)).at? path
        = (Value.table (updateAt id (pathOf parts) table)).at? path :=
      at?_build_of_apart (fun other ho => hh other (List.mem_cons_of_mem _ ho)) hl
    rw [build, ih]
    exact at?_open_of_not_above (hh _ List.mem_cons_self)
  | ⟨.assignment a, _⟩ :: rest, current, table, hh, hl => by
    have ih : (Value.table (build current (updateAt (Keyed.insert a.spelling.key a.value) current
        table) rest)).at? path
        = (Value.table (updateAt (Keyed.insert a.spelling.key a.value) current table)).at? path :=
      at?_build_of_apart (d := rest) hh fun leaf hm => hl leaf (List.mem_cons_of_mem _ hm)
    obtain ⟨h1, h2⟩ := hl ⟨current, a.spelling.key, a.value⟩ List.mem_cons_self
    rw [build, ih]
    exact at?_insertAt_of_apart h1 h2

/-- A leaf stands in the current section or under a header. -/
theorem place_mem {leaf : Leaf} : ∀ {d : FlatLayout} {current : List String},
    leaf ∈ leaves current d → leaf.place = current ∨ leaf.place ∈ headers d
  | [], _, h => by simp [leaves] at h
  | ⟨.blank _, _⟩ :: rest, current, h | ⟨.remark _ _, _⟩ :: rest, current, h =>
    place_mem (d := rest) h
  | ⟨.header _ parts _ _, _⟩ :: rest, current, h => by
    rcases place_mem (d := rest) h with hp | hp
    · exact .inr (hp ▸ List.mem_cons_self)
    · exact .inr (List.mem_cons_of_mem _ hp)
  | ⟨.assignment a, _⟩ :: rest, current, h => by
    rcases List.mem_cons.mp h with rfl | h
    · exact .inl rfl
    · exact place_mem (d := rest) h

/-- **An assignment is found at its path,** whatever stands before it and behind it.  Only the
paths of assignments have to be apart, and none may be the path of a table: an opened section is
no leaf, and an earlier leaf is passed over by the later lines. -/
theorem at?_build {leaf : Leaf} : ∀ {d : FlatLayout} {current : List String} {table : Table},
    leaf ∈ leaves current d → ((leaves current d).map Leaf.path).Nodup →
      (∀ other ∈ leaves current d, ∀ path, path = current ∨ path ∈ headers d →
        ¬ other.path <+: path) →
        (Value.table (build current table d)).at? leaf.path = some leaf.value
  | [], _, _, h, _, _ => by simp [leaves] at h
  | ⟨.blank _, _⟩ :: rest, current, table, h, hn, hc
  | ⟨.remark _ _, _⟩ :: rest, current, table, h, hn, hc =>
    at?_build (d := rest) h hn hc
  | ⟨.header _ parts _ _, _⟩ :: rest, current, table, h, hn, hc => by
    rw [build]
    refine at?_build (d := rest) h hn fun other ho path hp => hc other ho path (.inr ?_)
    exact List.mem_cons.mpr hp
  | ⟨.assignment a, _⟩ :: rest, current, table, h, hn, hc => by
    obtain ⟨hfresh, hn'⟩ := List.nodup_cons.mp hn
    rw [build]
    rcases List.mem_cons.mp h with rfl | hm
    · have hfirst := hc _ h
      -- its own line puts it in, and no line behind touches it
      rw [at?_build_of_apart (d := rest) (fun path hp => hfirst path (.inr hp))
        fun other ho => ⟨?_, ?_⟩]
      · exact at?_insertAt_self current [] a.spelling.key a.value table
      · intro hpre
        -- a prefix of the path is the path, or it clashes with the section
        rcases List.prefix_concat_iff.mp hpre with he | hp
        · exact hfresh (List.mem_map.mpr ⟨other, ho, he⟩)
        · exact hc other (List.mem_cons_of_mem _ ho) current (.inl rfl) hp
      · exact hfirst _ (place_mem (d := rest) ho)
    · exact at?_build (d := rest) hm hn' fun other ho => hc other (List.mem_cons_of_mem _ ho)

/-- What is found in the tree is a table, or an assignment, or it was there before.  So nothing
is in the tree that no line put there. -/
theorem build_cases {path : List String} {v : Value} : ∀ {d : FlatLayout} {current : List String}
    {table : Table}, (∀ leaf ∈ leaves current d, leaf.value.isPlain = true) →
      (Value.table (build current table d)).at? path = some v →
        (∃ entries, v = .table entries) ∨ (∃ leaf ∈ leaves current d, leaf.path = path
          ∧ leaf.value = v) ∨ (Value.table table).at? path = some v
  | [], _, _, _, h => .inr (.inr h)
  | ⟨.blank _, _⟩ :: rest, _, _, hp, h | ⟨.remark _ _, _⟩ :: rest, _, _, hp, h =>
    build_cases (d := rest) hp h
  | ⟨.header _ parts _ _, _⟩ :: rest, current, table, hp, h => by
    rcases build_cases (d := rest) hp h with ht | hl | hv
    · exact .inl ht
    · exact .inr (.inl hl)
    -- a table on the path of the header, or a place beside it
    · by_cases hpre : path <+: pathOf parts
      · obtain ⟨entries, he⟩ : ∃ entries, (Value.table (updateAt id (pathOf parts) table)).at? path
          = some (.table entries) := at?_updateAt_above id hpre
        exact .inl ⟨entries, Option.some.inj (hv.symm.trans he)⟩
      · exact .inr (.inr (by rwa [at?_open_of_not_above hpre] at hv))
  | ⟨.assignment a, _⟩ :: rest, current, table, hp, h => by
    have hplain := hp ⟨current, a.spelling.key, a.value⟩ List.mem_cons_self
    rcases build_cases (d := rest) (fun leaf hm => hp leaf (List.mem_cons_of_mem _ hm)) h
      with ht | ⟨leaf, hm, hl⟩ | hv
    · exact .inl ht
    · exact .inr (.inl ⟨leaf, List.mem_cons_of_mem _ hm, hl⟩)
    -- above the assignment there is a table, below it nothing, and beside it what there was
    · by_cases hbefore : path <+: current
      · have habove : ∃ entries, (Value.table (updateAt (Keyed.insert a.spelling.key a.value)
            current table)).at? path = some (.table entries) := at?_updateAt_above _ hbefore
        obtain ⟨entries, he⟩ := habove
        exact .inl ⟨entries, Option.some.inj (hv.symm.trans he)⟩
      · by_cases hbelow : (current ++ [a.spelling.key]) <+: path
        · obtain ⟨rest', rfl⟩ := hbelow
          rw [List.append_assoc, List.singleton_append, at?_insertAt_self] at hv
          have hscalar : a.value.isScalar = true :=
            isScalar_iff_literal?.mpr (literal?_of_isPlain hplain)
          obtain rfl : rest' = [] := by
            by_contra hne
            rw [at?_of_isScalar hscalar hne] at hv
            cases hv
          exact .inr (.inl ⟨_, List.mem_cons_self, by simp [Leaf.path], Option.some.inj hv⟩)
        · exact .inr (.inr (by rwa [at?_insertAt_of_apart hbelow hbefore] at hv))

/-- A plain scalar has no keys. -/
theorem wellKeyed_of_isPlain {value : Value} (h : value.isPlain = true) : value.WellKeyed := by
  cases value with
  | array | table => simp [Value.isPlain] at h
  | _ => trivial

/-- The keys of the tree are distinct, since an entry is put in under its key once. -/
theorem wellKeyed_build : ∀ {d : FlatLayout} {current : List String} {table : Table},
    (∀ leaf ∈ leaves current d, leaf.value.isPlain = true) → (Value.table table).WellKeyed →
      (Value.table (build current table d)).WellKeyed
  | [], _, _, _, h => h
  | ⟨.blank _, _⟩ :: rest, _, _, hp, h | ⟨.remark _ _, _⟩ :: rest, _, _, hp, h =>
    wellKeyed_build (d := rest) hp h
  | ⟨.header _ _ _ _, _⟩ :: rest, _, _, hp, h =>
    wellKeyed_build (d := rest) hp (wellKeyed_updateAt (fun _ he => he) h)
  | ⟨.assignment _, _⟩ :: rest, _, _, hp, h =>
    wellKeyed_build (d := rest) (fun leaf hm => hp leaf (List.mem_cons_of_mem _ hm))
      (wellKeyed_updateAt (fun _ he => wellKeyed_insert
        (wellKeyed_of_isPlain (hp _ List.mem_cons_self)) he) h)

namespace WellFormed

variable {d : FlatLayout}

/-- The values of a flat document are plain. -/
theorem isPlain_of_mem (h : d.WellFormed) {leaf : Leaf} (hm : leaf ∈ leaves [] d) :
    leaf.value.isPlain = true := by
  have hm' : ⟨leaf.place, leaf.key, leaf.value⟩ ∈ leaves (sectionOf none) d := hm
  obtain ⟨n, a, ha, -, hv, -⟩ := mem_leaves.mp hm'
  obtain ⟨row, hr, hrow⟩ := Option.bind_eq_some_iff.mp ha
  have hvalid := h.valid row (List.mem_of_getElem? hr)
  cases hl : row.line with
  | assignment b =>
    rw [hl] at hrow hvalid
    obtain rfl : b = a := by simpa using hrow
    exact hv ▸ hvalid.value
  | blank | remark | header =>
    rw [hl] at hrow
    simp at hrow

/-- The tree of a flat document is well keyed. -/
theorem wellKeyed (h : d.WellFormed) : d.tree.WellKeyed :=
  wellKeyed_build (fun _ hm => h.isPlain_of_mem hm) ⟨List.nodup_nil, trivial⟩

/-- **An assignment is found at its path.**  The conditions on a layout are the two that the
lemma on building needs: distinct paths, and no leaf at or above a header. -/
theorem at?_tree (h : d.WellFormed) {leaf : Leaf} (hm : leaf ∈ leaves [] d) :
    d.tree.at? leaf.path = some leaf.value := by
  refine at?_build hm h.keys fun other ho path hp => ?_
  rcases hp with rfl | hp
  · simp [Leaf.path]
  · exact h.clash other ho path hp

/-- **A scalar that is found is an assignment.**  It is no table, and before the first line there
was nothing. -/
theorem leaf_of_at?_tree (h : d.WellFormed) {path : List String} {v : Value} {literal : List Char}
    (hv : d.tree.at? path = some v) (hl : v.literal? = some literal) :
    ∃ leaf ∈ leaves [] d, leaf.path = path ∧ leaf.value = v := by
  rcases build_cases (fun _ hm => h.isPlain_of_mem hm) hv with ⟨entries, rfl⟩ | hleaf | hnone
  · simp [Value.literal?] at hl
  · exact hleaf
  · cases path with
    | nil =>
      obtain rfl : Value.table [] = v := by simpa [Value.at?] using hnone
      simp [Value.literal?] at hl
    | cons key path => simp [at?_table, Keyed.find?] at hnone

end WellFormed

/-! ## 2. The instructions of a revision

The difference of the two trees was told by their paths; here the paths are those of the
assignments.  A target is searched for by its line, a leaf is known by its path, and the two agree
because the governing header of a line is the section that the builder is in.
-/

/-- A revision holds a plain scalar where the old tree holds one. -/
theorem exists_revised : ∀ {path : List String} {old new v : Value}, Revised old new →
    old.at? path = some v → v.isPlain = true →
      ∃ w, new.at? path = some w ∧ w.isPlain = true
  | [], old, new, v, hr, hv, hp => by
    obtain rfl : old = v := by simpa [Value.at?] using hv
    -- the path ends here, so the two values are scalars
    cases hr with
    | scalar _ hn => exact ⟨new, rfl, hn⟩
    | table _ _ => simp [Value.isPlain] at hp
  | key :: path, old, new, v, hr, hv, hp => by
    cases hr with
    | scalar ho _ =>
      have hscalar : old.isScalar = true := isScalar_iff_literal?.mpr (literal?_of_isPlain ho)
      rw [at?_of_isScalar hscalar (List.cons_ne_nil key path)] at hv
      cases hv
    | @table old new hk hrev =>
      rw [at?_table] at hv
      obtain ⟨v', hv', hv⟩ := Option.bind_eq_some_iff.mp hv
      have hc : Keyed.contains key new = true := by
        rw [← hk]
        simp [Keyed.contains, hv']
      obtain ⟨w', hw'⟩ := Option.isSome_iff_exists.mp hc
      obtain ⟨w, hw, hplain⟩ := exists_revised (hrev key v' w' hv' hw') hv hp
      exact ⟨w, by rw [at?_table, hw', Option.bind_some, hw], hplain⟩

variable {d : FlatLayout} {new : Table}

/-- **The instructions are for the assignments whose literals differ.**  An instruction is for a
path with a literal before and another one after, and the paths with a literal are those of the
assignments. -/
theorem mem_instructions (h : d.WellFormed) {i : Instruction} :
    i ∈ (difference d.tree (.table new)).instructions
      ↔ ∃ leaf ∈ leaves [] d, i.path = leaf.path ∧ ∃ w, (Value.table new).at? leaf.path = some w
        ∧ Rewritten leaf.value w i.literal := by
  have hmem : i ∈ (difference d.tree (.table new)).instructions
      ↔ Changes [] d.tree (.table new) i := mem_difference h.wellKeyed
  rw [hmem]
  constructor
  · rintro ⟨path, v, w, hi, hv, hw, hr⟩
    obtain ⟨before, hb, -⟩ := id hr
    obtain ⟨leaf, hm, rfl, rfl⟩ := h.leaf_of_at?_tree hv hb
    exact ⟨leaf, hm, by simpa using hi, w, hw, hr⟩
  · rintro ⟨leaf, hm, hi, w, hw, hr⟩
    exact ⟨leaf.path, leaf.value, w, by simpa using hi, h.at?_tree hm, hw, hr⟩

/-- An assignment at a position, with its leaf. -/
theorem leaf_mem {n : Nat} {a : FlatAssignment} (ha : assignmentAt? d n = some a) :
    ⟨sectionOf (governing none (heads d) n), a.spelling.key, a.value⟩ ∈ leaves [] d := by
  have hm : ⟨sectionOf (governing none (heads d) n), a.spelling.key, a.value⟩
      ∈ leaves (sectionOf none) d := mem_leaves.mpr ⟨n, a, ha, rfl, rfl, rfl⟩
  exact hm

/-- What an instruction is for at the position that is found for it: the section of the header
above, and the key of the line. -/
theorem path_of_targetIndex? (h : d.WellFormed) {n : Nat} {a : FlatAssignment}
    (ha : assignmentAt? d n = some a) {i : Instruction} (hi : targetIndex? i (heads d) = some n) :
    i.path = sectionOf (governing none (heads d) n) ++ [a.spelling.key] := by
  have hanswer := answers_of_targetIndex? hi
  obtain ⟨b, hb, hk, hs⟩ := (answers_iff (s := i.target.parts) h.valid).mp hanswer
  obtain rfl : a = b := by simpa [ha] using hb
  rw [Instruction.path, ← hk, hs]

/-- **The last literal for an assignment** is the one that the new tree has for it, unless it is
the old one.  All instructions that find the line are for its path, and the new tree has one
value there, so which of them is the last does not matter. -/
theorem lastFor?_assignment (h : d.WellFormed) {n : Nat} {a : FlatAssignment}
    (ha : assignmentAt? d n = some a) {w : Value} {literal : List Char}
    (hw : (Value.table new).at? (sectionOf (governing none (heads d) n) ++ [a.spelling.key])
      = some w)
    (hl : w.literal? = some literal) :
    lastFor? (heads d) (difference d.tree (.table new)).instructions n
      = if a.literal = literal then none else some literal := by
  have hleaf := leaf_mem ha
  have hold : a.value.literal? = some a.literal := by
    obtain ⟨before, hb⟩ := literal?_of_isPlain (h.isPlain_of_mem hleaf)
    simp only at hb
    rw [FlatAssignment.literal, hb, Option.getD_some]
  -- whatever literal is found for the line is the new one
  have hsound : ∀ l, lastFor? (heads d) (difference d.tree (.table new)).instructions n = some l →
      a.literal ≠ literal ∧ l = literal := by
    intro l hlast
    obtain ⟨i, hi, hin, rfl⟩ := mem_of_lastFor? hlast
    obtain ⟨leaf, hm, hpath, w', hw', before, hb, hafter, hne⟩ := (mem_instructions h).mp hi
    rw [path_of_targetIndex? h ha hin] at hpath
    rw [← hpath, hw] at hw'
    obtain rfl := Option.some.inj hw'
    obtain rfl : literal = i.literal := by simpa [hl] using hafter
    have hvalue : leaf.value = a.value := by
      have h1 := h.at?_tree hm
      have h2 := h.at?_tree hleaf
      rw [← hpath] at h1
      exact Option.some.inj (h1.symm.trans h2)
    rw [hvalue, hold] at hb
    exact ⟨Option.some.inj hb ▸ hne, rfl⟩
  split
  · next he =>
    cases hlast : lastFor? (heads d) (difference d.tree (.table new)).instructions n with
    | none => rfl
    | some l => exact absurd he (hsound l hlast).1
  · next hne =>
    -- an instruction for the line exists, and the line answers to it
    have hi : Instruction.mk ⟨sectionOf (governing none (heads d) n)⟩ a.spelling.key literal
        ∈ (difference d.tree (.table new)).instructions :=
      (mem_instructions h).mpr ⟨_, hleaf, rfl, w, hw, a.literal, hold, hl, hne⟩
    have hsome : (lastFor? (heads d) (difference d.tree (.table new)).instructions n).isSome
        = true := by
      rw [isSome_lastFor?, List.any_eq_true]
      exact ⟨_, hi, by rw [targetIndex?_assignment h ha rfl rfl, beq_self_eq_true]⟩
    obtain ⟨l, hlast⟩ := Option.isSome_iff_exists.mp hsome
    rw [hlast, (hsound l hlast).2]

/-! ## 3. The text of a revision

Both texts are the pieces of a layout, one filled in and the other revised.  They are compared line
by line: the literal that is filled in is that of the new tree, and where none is filled in the old
literal is the new one.
-/

/-- A revision changes each line for itself. -/
theorem getElem?_revise (tree : Value) : ∀ (d : FlatLayout) (above : Option Header) (n : Nat),
    (revise tree (sectionOf above) d)[n]?
      = d[n]?.map fun row => row.revise tree (sectionOf (governing above (heads d) n))
  | [], _, _ => rfl
  | ⟨.header _ _ _ _, _⟩ :: _, _, 0 | ⟨.blank _, _⟩ :: _, _, 0 | ⟨.remark _ _, _⟩ :: _, _, 0
  | ⟨.assignment _, _⟩ :: _, _, 0 => rfl
  | ⟨.header _ parts _ _, _⟩ :: rest, _, n + 1 =>
    getElem?_revise tree rest (some ⟨⟨pathOf parts⟩, false⟩) n
  | ⟨.blank _, _⟩ :: rest, above, n + 1 | ⟨.remark _ _, _⟩ :: rest, above, n + 1
  | ⟨.assignment _, _⟩ :: rest, above, n + 1 => getElem?_revise tree rest above n

/-- **Filling in the literals of the instructions is revising the layout.**  An assignment
without an instruction has the literal of the new tree already; other lines have no literal. -/
theorem fill_pieces (h : d.WellFormed) (hr : Revised d.tree (.table new)) :
    fill (lastFor? (heads d) (difference d.tree (.table new)).instructions) (d.map FlatRow.piece)
      = (revise (.table new) [] d).map FlatRow.piece := by
  have hrevise (n : Nat) : (revise (.table new) [] d)[n]?
      = d[n]?.map fun row => row.revise (.table new) (sectionOf (governing none (heads d) n)) :=
    getElem?_revise (.table new) d none n
  refine List.ext_getElem? fun n => ?_
  rw [fill, List.getElem?_mapIdx, List.getElem?_map, List.getElem?_map, hrevise]
  cases hrow : d[n]? with
  | none => rfl
  | some row =>
    obtain ⟨line, ending⟩ := row
    simp only [Option.map_some, Option.some.injEq]
    cases line with
    | assignment a =>
      have ha : assignmentAt? d n = some a := by simp [assignmentAt?, hrow]
      have hleaf := leaf_mem ha
      obtain ⟨w, hw, hplain⟩ := exists_revised hr (h.at?_tree hleaf) (h.isPlain_of_mem hleaf)
      obtain ⟨literal, hl⟩ := literal?_of_isPlain hplain
      rw [lastFor?_assignment h ha hw hl]
      simp only [Leaf.path] at hw
      have hnew : (w.literal?).getD [] = literal := by rw [hl, Option.getD_some]
      simp only [FlatRow.revise, hw, Option.getD_some, FlatRow.piece, FlatAssignment.lead,
        FlatAssignment.literal, hnew]
      -- nothing is filled in where the literal is the same
      by_cases he : a.value.literal?.getD [] = literal
      · simp [he]
      · simp [he, Piece.write]
    | blank | remark | header =>
      cases lastFor? (heads d) (difference d.tree (.table new)).instructions n <;> rfl

/-- **Every instruction finds its assignment,** which is a place for a literal.  It is for the
path of a leaf; the leaf has a line, and that line answers to it first. -/
theorem hits_pieces (h : d.WellFormed) {i : Instruction}
    (hi : i ∈ (difference d.tree (.table new)).instructions) :
    hits (d.map FlatRow.piece) i = true ∧ Fillable (d.map FlatRow.piece) i := by
  obtain ⟨leaf, hm, hpath, -⟩ := (mem_instructions h).mp hi
  have hm' : ⟨leaf.place, leaf.key, leaf.value⟩ ∈ leaves (sectionOf none) d := hm
  obtain ⟨n, a, ha, hk, -, hplace⟩ := mem_leaves.mp hm'
  obtain ⟨hparts, hkey⟩ := List.append_inj' hpath rfl
  have hn : targetIndex? i (heads d) = some n :=
    targetIndex?_assignment h ha (by rw [hk]; simpa using hkey) (by rw [hplace]; exact hparts)
  rw [heads, ← heads_pieces h.valid] at hn
  obtain ⟨row, hr, hrow⟩ := Option.bind_eq_some_iff.mp ha
  obtain ⟨line, ending⟩ := row
  cases line with
  | assignment b =>
    obtain rfl : b = a := by simpa using hrow
    have hvalid : b.Valid := h.valid _ (List.mem_of_getElem? hr)
    have hp : pieceFor? (d.map FlatRow.piece) i
        = some (n, .entry ⟨⟨[b.spelling.key]⟩, b.lead, b.literal, b.gap ++ b.comment
          ++ ending.chars⟩) :=
      pieceFor?_eq_some.mpr ⟨hn, by simp [hr, FlatRow.piece]⟩
    refine ⟨hits_eq_true.mpr ⟨n, _, hp⟩, fun m e he => ?_⟩
    rw [hp] at he
    obtain ⟨-, he⟩ := Prod.mk.inj (Option.some.inj he)
    obtain rfl := Piece.entry.inj he
    exact hvalid.fits b.literal ending
  | blank | remark | header => simp at hrow

/-- There is an instruction exactly if some assignment has another literal. -/
theorem instructions_eq_nil (h : d.WellFormed) (hr : Revised d.tree (.table new)) :
    (difference d.tree (.table new)).instructions = [] ↔ d.agrees (.table new) = true := by
  rw [List.eq_nil_iff_forall_not_mem, agrees, List.all_eq_true]
  constructor
  · intro hnone leaf hm
    obtain ⟨w, hw, hplain⟩ := exists_revised hr (h.at?_tree hm) (h.isPlain_of_mem hm)
    obtain ⟨before, hb⟩ := literal?_of_isPlain (h.isPlain_of_mem hm)
    obtain ⟨after, ha⟩ := literal?_of_isPlain hplain
    -- a leaf with another literal would have its instruction
    by_contra hne
    refine hnone ⟨⟨leaf.place⟩, leaf.key, after⟩ ((mem_instructions h).mpr
      ⟨leaf, hm, rfl, w, hw, before, hb, ha, ?_⟩)
    rintro rfl
    simp [hw, hb, ha] at hne
  · intro hall i hi
    obtain ⟨leaf, hm, -, w, hw, before, hb, ha, hne⟩ := (mem_instructions h).mp hi
    have := hall leaf hm
    rw [hw, Option.bind_some, ha, hb] at this
    exact hne (by simpa using (beq_iff_eq.mp this).symm)

/-- **The layout of a flat document is kept.**  A revision of its tree is never written anew: the
text is the layout with the literals of the revision, and it is patched exactly if one of them is
another one. -/
theorem reconcile_flat (d : FlatLayout) (h : d.WellFormed) (new : Value)
    (hr : Revised d.tree new) :
    (reconcile d.text (some d.tree) new true).text = (revise new [] d).text
      ∧ (reconcile d.text (some d.tree) new true).report.mode
        = if d.agrees new then .unchanged else .patched := by
  obtain ⟨new, rfl, hs⟩ := hr.isStructural h.wellKeyed
  have hs' : (difference d.tree (.table new)).isStructural = false := hs
  have hfill := fill_pieces h hr
  have hnil := instructions_eq_nil h hr
  have hseg : Segmented (d.map FlatRow.piece) := segmented_pieces h.valid h.ended
  have hheads : (d.map FlatRow.piece).map Piece.head = heads d := heads_pieces h.valid
  -- without an instruction the text is returned as it is; with one it is patched, and no
  -- instruction is missed, so the text is never written anew
  by_cases hi : (difference d.tree (.table new)).instructions = []
  · rw [if_pos (hnil.mp hi)]
    have hsame : (d.map FlatRow.piece) = (revise (.table new) [] d).map FlatRow.piece := by
      rw [← hfill, hi]
      exact (fill_nothing _).symm
    have htext : (revise (.table new) [] d).text = d.text := by
      rw [← textOf_pieces, ← hsame, textOf_pieces]
    simp [reconcile, hs', hi, htext]
  · have hagree : d.agrees (.table new) = false := by
      rw [Bool.eq_false_iff]
      exact fun ha => hi (hnil.mpr ha)
    have hlit : ∀ i ∈ (difference d.tree (.table new)).instructions, IsLiteral i.literal := by
      intro i hm
      obtain ⟨leaf, hleaf, -, w, hw, before, -, ha, -⟩ := (mem_instructions h).mp hm
      obtain ⟨w', hw', hplain⟩ := exists_revised hr (h.at?_tree hleaf) (h.isPlain_of_mem hleaf)
      obtain rfl := Option.some.inj (hw'.symm.trans hw)
      exact isLiteral_of_literal? hplain ha
    have hpatch := patchAll_textOf hseg hlit fun i hm => (hits_pieces h hm).2
    have happlied :
        (difference d.tree (.table new)).instructions.filter (hits (d.map FlatRow.piece))
        = (difference d.tree (.table new)).instructions :=
      List.filter_eq_self.mpr fun i hm => (hits_pieces h hm).1
    have hmissed : (difference d.tree (.table new)).instructions.filter
        (fun i => !hits (d.map FlatRow.piece) i) = [] :=
      List.filter_eq_nil_iff.mpr fun i hm => by simp [(hits_pieces h hm).1]
    rw [textOf_pieces, hheads, hfill, textOf_pieces, happlied, hmissed] at hpatch
    simp [reconcile, hs', hi, hpatch, hagree]

/-- A quoted key before a comment, and a key under a header: both get their new literals. -/
theorem reconcile_flat_two_values :
    (reconcile "\"a b\"\t= 1 # n\r\n[s]\n  k = \"x # y\"".toList
      (some (.table [("a b", .integer 1), ("s", .table [("k", .string "x # y")])]))
      (.table [("a b", .string "#"), ("s", .table [("k", .bool true)])]) true).text
      = "\"a b\"\t= \"#\" # n\r\n[s]\n  k = true".toList := by
  have hinner : Revised (.table [("k", .string "x # y")]) (.table [("k", .bool true)]) :=
    Revised.empty.insert (.scalar rfl rfl) "k"
  have hr : Revised (.table [("a b", .integer 1), ("s", .table [("k", .string "x # y")])])
      (.table [("a b", .string "#"), ("s", .table [("k", .bool true)])]) :=
    (Revised.empty.insert (.scalar rfl rfl) "a b").insert hinner "s"
  have h := reconcile_flat
    [⟨.assignment ⟨[], ⟨.double, "a b".toList⟩, ['\t'], [' '], .integer 1, [' '], "# n".toList⟩,
      .crlf⟩, ⟨.header [] [⟨[], ⟨.bare, ['s']⟩, []⟩] [] [], .lf⟩,
      ⟨.assignment ⟨[' ', ' '], ⟨.bare, ['k']⟩, [' '], [' '], .string "x # y", [], []⟩, .none⟩]
    (by decide +kernel) _ hr
  exact h.1.trans (by decide +kernel)

end FlatLayout

end TomlKeep
