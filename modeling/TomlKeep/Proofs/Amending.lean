/-
# Trees that are amended

A document is amended if scalars of its tree are replaced by those that instructions bring
(`Amends`).  If the instructions are the difference to a new tree, and every one of them has
taken effect where it is meant, the amended tree is the new one (`Amended.same_at`).

Both trees are compared path by path (`Shadow`).  Elements of arrays of tables have no path; they
are left as they are, since the paths of instructions lead through tables only.
-/
import TomlKeep.Proofs.OtherValues
import TomlKeep.Proofs.Unedited

namespace TomlKeep

open Toml

/-! ## 1. Amended values

What an instruction has done to a tree is told value by value: each is as it was, or it was a scalar
and is now the one that some instruction for its path brings.  A part of the tree that no path of an
instruction leads to is therefore the same, arrays with all they hold included.
-/

/-- **A value that is left,** or a scalar in whose place an instruction for its path puts
another. -/
def Amends (is : List Instruction) (path : List String) (v w : Value) : Prop :=
  w = v ∨ (v.isScalar = true ∧ ∃ i ∈ is, i.path = path ∧ scalarOf? i.literal = some w)

variable {is : List Instruction} {path : List String}

/-- What is read from a literal is a scalar. -/
theorem isScalar_of_scalarOf? {literal : List Char} {value : Value}
    (h : scalarOf? literal = some value) : value.isScalar = true := by
  unfold scalarOf? at h
  split at h
  · obtain ⟨⟨s, behind⟩, -, h⟩ := Option.bind_eq_some_iff.mp h
    obtain ⟨-, h⟩ := Option.ite_none_right_eq_some.mp h
    obtain rfl := Option.some.inj h
    rfl
  · exact (isRead_of_tokenValue? h).2

mutual

/-- What no instruction is for is left as it is. -/
theorem toValue_eq_of_alike : ∀ {path : List String} {n m : Node},
    NodeAlike (Amends is) path n m → (∀ i ∈ is, ¬ path <+: i.path) → n.toValue = m.toValue
  | path, _, _, .value hr, hn => by
    rcases hr with rfl | ⟨-, i, hi, rfl, -⟩
    · rfl
    · exact absurd (List.prefix_refl _) (hn i hi)
  | path, _, _, .table h, hn => by rw [Node.toValue, Node.toValue, nodeEntries_eq_of_alike h hn]
  | path, _, _, .tables h, hn => by rw [Node.toValue, Node.toValue, nodeElements_eq_of_alike h hn]

/-- Tables that no instruction leads to are left as they are. -/
theorem nodeEntries_eq_of_alike : ∀ {path : List String} {a b : Nodes},
    NodesAlike (Amends is) path a b → (∀ i ∈ is, ¬ path <+: i.path) → nodeEntries a = nodeEntries b
  | path, _, _, .nil, _ => rfl
  | path, _, _, @NodesAlike.cons _ _ key _ _ _ _ hn ha, h => by
    have hkey : ∀ i ∈ is, ¬ path ++ [key] <+: i.path := by
      intro i hi hp
      exact h i hi ((List.prefix_append path [key]).trans hp)
    rw [nodeEntries, nodeEntries, toValue_eq_of_alike hn hkey, nodeEntries_eq_of_alike ha h]

/-- So are the elements of arrays. -/
theorem nodeElements_eq_of_alike : ∀ {path : List String} {as bs : List Nodes},
    ElementsAlike (Amends is) path as bs → (∀ i ∈ is, ¬ path <+: i.path) →
      nodeElements as = nodeElements bs
  | path, _, _, .nil, _ => rfl
  | path, _, _, .cons ha has, h => by
    rw [nodeElements, nodeElements, nodeEntries_eq_of_alike ha h, nodeElements_eq_of_alike has h]

end

/-- **What stands at a path of the tree and of the amended one.** -/
inductive Shadow (is : List Instruction) (path : List String) :
    Option Value → Option Value → Prop where
  | none : Shadow is path none none
  | value {v w : Value} : Amends is path v w → Shadow is path (some v) (some w)
  | table {x y : Table} : Keyed.keys x = Keyed.keys y →
      Shadow is path (some (.table x)) (some (.table y))
  | array {xs ys : List Value} : ((∀ i ∈ is, ¬ path <+: i.path) → xs = ys) →
      Shadow is path (some (.array xs)) (some (.array ys))

/-- What is left as it is is a shadow of itself. -/
theorem shadow_refl (is : List Instruction) (path : List String) (v : Option Value) :
    Shadow is path v v := by
  cases v with
  | none => exact .none
  | some v => exact .value (.inl rfl)

/-- **Tables that differ in amended values only** hold the same at every path, amended.  Below a
scalar there is nothing, before and after. -/
theorem shadow_of_alike : ∀ {more path : List String} {a b : Nodes},
    NodesAlike (Amends is) path a b → Shadow is (path ++ more)
      ((Value.table (nodeEntries a)).at? more) ((Value.table (nodeEntries b)).at? more)
  | [], path, a, b, h => by
    refine .table ?_
    rw [nodeEntries_eq_map, nodeEntries_eq_map, Keyed.keys, Keyed.keys, List.map_map, List.map_map]
    exact h.keys
  | key :: more, path, a, b, h => by
    rw [at?_table, at?_table, find?_nodeEntries, find?_nodeEntries]
    have hpath : path ++ key :: more = path ++ [key] ++ more := by simp
    rcases h.find? key with ⟨ha, hb⟩ | ⟨n, m, ha, hb, hnm⟩
    · rw [ha, hb]
      exact .none
    · rw [ha, hb, hpath]
      cases hnm with
      | @value _ v w hr =>
        rcases hr with rfl | ⟨hs, i, hi, hp, hw⟩
        · exact shadow_refl is _ _
        -- the path ends at the scalar that was replaced, or goes on below it
        · by_cases hmore : more = []
          · subst hmore
            rw [List.append_nil]
            exact .value (.inr ⟨hs, i, hi, hp, hw⟩)
          · have hv : v.at? more = none := at?_of_isScalar hs hmore
            have hw' : w.at? more = none := at?_of_isScalar (isScalar_of_scalarOf? hw) hmore
            simp only [Option.map_some, Option.bind_some, Node.toValue, hv, hw']
            exact .none
      | table hxy => exact shadow_of_alike hxy
      | @tables _ xs ys hxy =>
        cases more with
        | nil =>
          rw [List.append_nil]
          exact .array fun hn => nodeElements_eq_of_alike hxy hn
        | cons => exact .none

/-! ## 2. The new tree

The new tree is built by an editor, so its scalars may be any; those that a literal can bring back
are asked for.
-/

/-- A scalar that an edit may bring: it is written as a literal that is read as itself. -/
def Value.IsWritable (value : Value) : Prop := value.isPlain = true ∧ value ≠ .null

/-- Its literal is read as it. -/
theorem Value.IsWritable.scalarOf? {value : Value} (h : value.IsWritable) {literal : List Char}
    (hl : value.literal? = some literal) : scalarOf? literal = some value :=
  scalarOf?_literal? h.1 h.2 hl

/-- It is the same as itself, since it is no NaN. -/
theorem Value.IsWritable.same_self {value : Value} (h : value.IsWritable) :
    value.same value = true := by
  obtain ⟨hp, hnull⟩ := h
  cases value with
  | array | table => cases hp
  | float x =>
    rw [same_scalar_self_iff rfl]
    cases x with
    | nan => cases hp
    | _ => trivial
  | _ => exact (same_scalar_self_iff rfl).mpr trivial

/-! ## 3. The amended tree is the new one

Old and new tree correspond but for scalars, and the amended one has the shape of the old one.  So
the three are compared along the old tree: at a table by its keys, at an array not at all, and at a
scalar by its literal.
-/

/-- Tables with the same keys have as many entries. -/
theorem length_eq_of_contains {x y : Table} (hx : (Keyed.keys x).Nodup) (hy : (Keyed.keys y).Nodup)
    (h : ∀ key, Keyed.contains key x = Keyed.contains key y) : x.length = y.length := by
  have hperm : (Keyed.keys x).Perm (Keyed.keys y) := by
    rw [List.perm_ext_iff_of_nodup hx hy]
    intro key
    rw [mem_keys_iff, mem_keys_iff, h]
  simpa [Keyed.keys] using hperm.length_eq

/-- **Two tables are the same** if they have the same keys and the same under each of them. -/
theorem same_tables {x y : Table} (hx : (Keyed.keys x).Nodup) (hy : (Keyed.keys y).Nodup)
    (hk : ∀ key, Keyed.contains key x = Keyed.contains key y)
    (hv : ∀ key v w, Keyed.find? key x = some v → Keyed.find? key y = some w → v.same w = true) :
    (Value.table x).same (.table y) = true := by
  rw [Value.same, length_eq_of_contains hx hy hk, beq_self_eq_true, Bool.true_and, sameEntries_iff]
  intro key v hm
  have hfind : Keyed.find? key x = some v := Keyed.find?_of_mem hx hm
  have hcontains : Keyed.contains key y = true := by
    rw [← hk, Keyed.contains, hfind]
    rfl
  obtain ⟨w, hw⟩ := Option.isSome_iff_exists.mp hcontains
  exact ⟨w, hw, hv key v w hfind hw⟩

/-- Whether an edit goes unnoticed: a float that is not finite has the literal of the integer
zero. -/
def Unnoticed (old new : Value) (path : List String) : Prop :=
  (∃ x : Binary64, x.isFinite = false ∧ old.at? path = some (.float x))
    ∧ new.at? path = some (.integer 0)

/-- **An amended tree between an old and a new one.**  The instructions are what has changed, and
each of them has taken effect at its path. -/
structure Amended (is : List Instruction) (old mid new : Value) : Prop where
  shadow : ∀ path, Shadow is path (old.at? path) (mid.at? path)
  changes : ∀ i, i ∈ is ↔ Changes [] old new i
  effect : ∀ i ∈ is, ∃ v, scalarOf? i.literal = some v ∧ mid.at? i.path = some v
  noticed : ∀ path, ¬ Unnoticed old new path

namespace Amended

variable {old mid new : Value}

/-- The path of an instruction leads to a scalar. -/
theorem exists_scalar (h : Amended is old mid new) {i : Instruction} (hi : i ∈ is) :
    ∃ v, old.at? i.path = some v ∧ v.isScalar = true := by
  obtain ⟨path, v, w, hp, hv, -, before, hb, -⟩ := (h.changes i).mp hi
  obtain rfl : i.path = path := hp
  exact ⟨v, hv, isScalar_iff_literal?.mpr ⟨before, hb⟩⟩

/-- **A scalar is the new one:** it has been replaced, or it had the literal of the new one.  In
the second case the literal gives back both, unless the old one is written zero and is none; this
is the edit that is not noticed. -/
theorem same_scalar (h : Amended is old mid new) {path : List String} (hne : path ≠ [])
    {u v w : Value} (hu : old.at? path = some u) (hv : mid.at? path = some v)
    (hw : new.at? path = some w) (hread : u.IsRead) (hnew : w.IsWritable) : v.same w = true := by
  have hscalar : u.isScalar = true := by cases u <;> first | rfl | exact absurd hread id
  obtain ⟨before, hb⟩ := isScalar_iff_literal?.mp hscalar
  obtain ⟨after, ha⟩ := literal?_of_isPlain hnew.1
  have hafter : scalarOf? after = some w := hnew.scalarOf? ha
  by_cases hsame : before = after
  · subst hsame
    -- no instruction is for this path, so the scalar is the old one
    have hno : ∀ i ∈ is, i.path ≠ path := by
      rintro i hi rfl
      obtain ⟨path, u', w', hp, hu', hw', b, hb', ha', hdiff⟩ := (h.changes i).mp hi
      obtain rfl : i.path = path := hp
      obtain rfl : u = u' := Option.some.inj (hu.symm.trans hu')
      obtain rfl : w = w' := Option.some.inj (hw.symm.trans hw')
      exact hdiff ((Option.some.inj (hb'.symm.trans hb)).trans
        (Option.some.inj (ha.symm.trans ha')))
    have hold : v = u := by
      have hshadow := h.shadow path
      rw [hu, hv] at hshadow
      cases hshadow with
      | value hr =>
        rcases hr with hr | ⟨-, i, hi, hp, -⟩
        · exact hr
        · exact absurd hp (hno i hi)
      | table | array => cases hscalar
    subst hold
    rcases scalarOf?_of_isRead hread hb with hread' | ⟨hzero, hread'⟩
    · obtain rfl : v = w := Option.some.inj (hread'.symm.trans hafter)
      exact hnew.same_self
    · obtain rfl : Value.integer 0 = w := Option.some.inj (hread'.symm.trans hafter)
      cases v with
      | integer n =>
        obtain rfl : n = 0 := hzero
        rfl
      | float x => exact absurd ⟨⟨x, hzero, hu⟩, hw⟩ (h.noticed path)
      | _ => exact absurd hzero id
  -- the literals differ, so there is an instruction, and it has taken effect
  · obtain ⟨front, key, rfl⟩ : ∃ front key, path = front ++ [key] :=
      ⟨path.dropLast, path.getLast hne, (List.dropLast_append_getLast hne).symm⟩
    have hi : Instruction.mk ⟨front⟩ key after ∈ is := by
      refine (h.changes _).mpr ⟨front ++ [key], u, w, rfl, hu, hw, before, hb, ha, hsame⟩
    obtain ⟨v', hv', hmid⟩ := h.effect _ hi
    obtain rfl : v' = w := Option.some.inj (hv'.symm.trans hafter)
    obtain rfl : v = v' := Option.some.inj (hv.symm.trans hmid)
    exact hnew.same_self

/-- An array is left as it is: no path of an instruction leads through it. -/
theorem array_eq (h : Amended is old mid new) {path : List String} {items : List Value} {v : Value}
    (hu : old.at? path = some (.array items)) (hv : mid.at? path = some v) : v = .array items := by
  have hno : ∀ i ∈ is, ¬ path <+: i.path := by
    rintro i hi ⟨more, hp⟩
    obtain ⟨s, hs, hscalar⟩ := h.exists_scalar hi
    rw [← hp, at?_append, hu, Option.bind_some] at hs
    cases more with
    | nil =>
      obtain rfl := Option.some.inj hs
      cases hscalar
    | cons => cases hs
  have hshadow := h.shadow path
  rw [hu, hv] at hshadow
  cases hshadow with
  | value hr =>
    rcases hr with hr | ⟨hs, -⟩
    · exact hr
    · cases hs
  | array he => rw [he hno]

/-- A table stays one, with the same keys. -/
theorem exists_table (h : Amended is old mid new) {path : List String} {x : Table} {v : Value}
    (hu : old.at? path = some (.table x)) (hv : mid.at? path = some v) :
    ∃ y, v = .table y ∧ Keyed.keys x = Keyed.keys y := by
  have hshadow := h.shadow path
  rw [hu, hv] at hshadow
  cases hshadow with
  | value hr =>
    rcases hr with rfl | ⟨hs, -⟩
    · exact ⟨x, rfl, rfl⟩
    · cases hs
  | table he => exact ⟨_, rfl, he⟩

/-- **The amended tree is the new one** at every path, by induction on what the old tree has
there. -/
theorem same_at (h : Amended is old mid new) {u : Value} : ∀ {path : List String} {v w : Value},
    old.at? path = some u → mid.at? path = some v → new.at? path = some w →
      (path = [] → u.isScalar = false) → Corresponds AnyScalars u w → u.Holds Value.IsRead →
        w.Holds Value.IsWritable → v.same w = true := by
  induction u using Value.treeInduction with
  | scalar u hs =>
    intro path v w hu hv hw hne hc hold hnew
    have hw' : w.isScalar = true := by
      cases hc with
      | scalar _ hn => exact hn
      | array | table => cases hs
    refine h.same_scalar ?_ hu hv hw ((scalars_of_isScalar hs).mp hold.2)
      ((scalars_of_isScalar hw').mp hnew.2)
    intro hnil
    rw [hne hnil] at hs
    cases hs
  | array items =>
    intro path v w hu hv hw _ hc _ _
    rw [h.array_eq hu hv]
    cases hc with
    | scalar ho => cases ho
    | array hs => exact hs
  | table x ih =>
    intro path v w hu hv hw _ hc hold hnew
    obtain ⟨y, rfl, hkeys⟩ := h.exists_table hu hv
    cases hc with
    | scalar ho => cases ho
    | @table _ z hcontains hvalues =>
      have hx : (Keyed.keys x).Nodup := (holds_table_iff.mp hold).1
      have hz : (Keyed.keys z).Nodup := (holds_table_iff.mp hnew).1
      refine same_tables (hkeys ▸ hx) hz ?_ ?_
      · intro key
        rw [← Keyed.contains_eq_of_keys_eq hkeys, hcontains]
      · intro key b c hb hc
        -- what stands under a key of a table stands at the longer path
        have step {root value : Value} {entries : Table}
            (hr : root.at? path = some (.table entries))
            (hf : Keyed.find? key entries = some value) :
            root.at? (path ++ [key]) = some value := by
          rw [at?_append, hr, Option.bind_some, at?_table, hf]
          rfl
        obtain ⟨a, ha⟩ : ∃ a, Keyed.find? key x = some a := by
          refine Option.isSome_iff_exists.mp ((Keyed.contains_eq_of_keys_eq hkeys key).trans ?_)
          rw [Keyed.contains, hb]
          rfl
        exact ih key a (Keyed.find?_mem ha) (step hu ha) (step hv hb) (step hw hc) (by simp)
          (hvalues key a c ha hc) (hold.of_find? ha) (hnew.of_find? hc)

end Amended

end TomlKeep
