/-
# When nothing has changed

A save that reports no change has found the same tree (`Corresponds`): tables have the same keys,
arrays are the same in every item, and scalars elsewhere have the same literal.  That is all a
difference looks at (`difference_eq_empty_iff`), and so the report is only as good as the three
comparisons.

* An array that holds a NaN, however deep, is not the same as itself (`same_self_iff`).  So a
  document with a NaN in an array counts as edited when its own tree is saved
  (`save_own_tree_iff`).
* Scalars outside arrays count as the same if their literals are (`SameLiteral`).  So an edit
  that replaces one scalar by another goes unnoticed if both are written `0`, or if the new one
  is a date-time with the old literal for its text; no other edit does (`save_unchanged_iff`).

A difference is empty if it is not structural and has no instruction, and both are known from
what stands at the paths of the two trees.
-/
import TomlKeep.Proofs.ReadBack
import TomlKeep.Proofs.Saving
import TomlKeep.Proofs.ScalarLeaves
import TomlKeep.Proofs.StructuralChanges

namespace TomlKeep

/-! ## 1. Equality up to the order of keys

Equality of values is that of the program: floating-point numbers are compared as numbers, and a NaN
differs from itself.  Everything else in a value is the same as itself, so what can spoil the
equality of a value with itself is a NaN in it.
-/

/-- An array is the same as itself if each of its items is. -/
theorem sameItems_self_iff {items : List Value} :
    Value.sameItems items items = true ↔ ∀ value ∈ items, value.same value = true := by
  induction items with
  | nil => simp [Value.sameItems]
  | cons value rest ih => simp [Value.sameItems, ih]

/-- The entries of a table are the same as those of another if each is found there with the same
value. -/
theorem sameEntries_iff {other : Table} {entries : List (String × Value)} :
    Value.sameEntries entries other = true ↔ ∀ key a, (key, a) ∈ entries →
      ∃ b, Keyed.find? key other = some b ∧ a.same b = true := by
  induction entries with
  | nil => simp [Value.sameEntries]
  | cons e rest ih =>
    obtain ⟨k, v⟩ := e
    rw [Value.sameEntries, Bool.and_eq_true, ih]
    constructor
    · rintro ⟨hv, hrest⟩ key a hm
      rcases List.mem_cons.mp hm with he | hm
      · obtain ⟨rfl, rfl⟩ := Prod.mk.inj he
        split at hv
        · next b hb => exact ⟨b, hb, hv⟩
        · cases hv
      · exact hrest key a hm
    · intro h
      obtain ⟨b, hb, hs⟩ := h k v List.mem_cons_self
      exact ⟨by rw [hb]; exact hs, fun key a hm => h key a (List.mem_cons_of_mem _ hm)⟩

/-- A scalar that is no NaN. -/
def Value.IsNumeric : Value → Prop
  | .float (.nan _) => False
  | _ => True

/-- A scalar is the same as itself if it is no NaN. -/
theorem same_scalar_self_iff {value : Value} (h : value.isScalar = true) :
    value.same value = true ↔ value.IsNumeric := by
  cases value with
  | float x => cases x <;> simp [Value.same, Value.IsNumeric, Binary64.same, Binary64.place?]
  | array | table => cases h
  | _ => simp [Value.same, Value.IsNumeric]

/-- A scalar is all the scalars that it has. -/
theorem scalars_of_isScalar {p : Value → Prop} {value : Value} (h : value.isScalar = true) :
    value.Scalars p ↔ p value := by
  cases value <;> first | exact Iff.rfl | cases h

/-- **A value is the same as itself** if there is no NaN in it, at any depth.  Distinct keys are
needed to find an entry of a table again under its key. -/
theorem same_self_iff {value : Value} :
    value.WellKeyed → (value.same value = true ↔ value.Scalars Value.IsNumeric) := by
  induction value using Value.treeInduction with
  | scalar value hs =>
    intro _
    rw [same_scalar_self_iff hs, scalars_of_isScalar hs]
  | array items ih =>
    intro hw
    have hitems := wellKeyedItems_iff.mp hw
    rw [Value.same, sameItems_self_iff, Value.Scalars, scalarsItems_iff]
    exact forall₂_congr fun value hm => ih value hm (hitems value hm)
  | table entries ih =>
    intro hw
    have hentries := wellKeyedEntries_iff.mp hw.2
    rw [Value.same, beq_self_eq_true, Bool.true_and, sameEntries_iff, Value.Scalars,
      scalarsEntries_iff]
    refine forall₂_congr fun key value => forall_congr' fun hm => ?_
    rw [Keyed.find?_of_mem hw.1 hm, ← ih key value hm (hentries key value hm)]
    simp

/-! ## 2. Differences that are empty

The parts of a difference are known from the leaves and from the common tables of the two trees.
Put together, an empty difference says of each path what may stand there in both trees, which is
what agreeing trees are.
-/

/-- Two scalars with one literal. -/
def SameLiteral (old new : Value) : Prop := old.literal? = new.literal?

/-- A difference is empty if it has neither instructions nor structural changes. -/
theorem Difference.eq_empty_iff {d : Difference} :
    d = .empty ↔ d.instructions = [] ∧ d.structural = [] := by
  cases d
  simp [empty]

/-- **The difference of two trees is empty** if and only if they agree.  At a path with a scalar
in both trees there is no instruction, so the literals are the same; at any other path there is
no structural change. -/
theorem difference_eq_empty_iff {old new : Table} (hw : (Value.table old).WellKeyed) :
    difference (.table old) (.table new) = .empty
      ↔ Corresponds SameLiteral (.table old) (.table new) := by
  rw [Difference.eq_empty_iff, structural_eq_nil_iff hw, List.eq_nil_iff_forall_not_mem,
    corresponds_iff]
  constructor
  · rintro ⟨hi, hs⟩
    refine ⟨.inl ⟨old, new, rfl, rfl⟩, fun path a b ha hb => ⟨?_, fun has hbs => ?_⟩⟩
    · rintro x y rfl rfl
      exact hs path x y ha hb
    · obtain ⟨before, hbefore⟩ := isScalar_iff_literal?.mp has
      obtain ⟨after, hafter⟩ := isScalar_iff_literal?.mp hbs
      by_contra hne
      -- a scalar stands under a key, so its path has a last key, that of the instruction
      rcases List.eq_nil_or_concat path with rfl | ⟨front, key, rfl⟩
      · obtain rfl := Option.some.inj ha
        cases has
      · rw [List.concat_eq_append] at ha hb
        refine hi ⟨⟨front⟩, key, after⟩ ((mem_difference hw).mpr ⟨front ++ [key], a, b, rfl, ha, hb,
          before, hbefore, hafter, ?_⟩)
        rintro rfl
        exact hne (hbefore.trans hafter.symm)
  · rintro ⟨-, h⟩
    refine ⟨fun i hi => ?_, fun path x y hx hy => (h path _ _ hx hy).1 x y rfl rfl⟩
    obtain ⟨path, v, w, -, hv, hw', before, hb, ha, hne⟩ := (mem_difference hw).mp hi
    have hsame : v.literal? = w.literal? := (h path v w hv hw').2
      (isScalar_iff_literal?.mpr ⟨before, hb⟩) (isScalar_iff_literal?.mpr ⟨i.literal, ha⟩)
    exact hne (Option.some.inj ((hb.symm.trans hsame).trans ha))

/-- A save with an empty difference returns the text as it is. -/
theorem reconcile_of_eq_empty {text : List Char} {tree new : Value}
    (h : difference tree new = .empty) :
    reconcile text (some tree) new true = ⟨text, ⟨.unchanged, [], [], []⟩⟩ := by
  simp [reconcile, h, Difference.empty, Difference.isStructural]

/-- A save reports no change if the difference is empty, and only then. -/
theorem mode_reconcile_eq_unchanged_iff {text : List Char} {tree new : Value} :
    (reconcile text (some tree) new true).report.mode = .unchanged
      ↔ difference tree new = .empty := by
  rw [Difference.eq_empty_iff, and_comm]
  cases hs : (difference tree new).isStructural with
  | true =>
    have : (difference tree new).structural ≠ [] := by
      simpa [Difference.isStructural] using hs
    simp [reconcile, hs, regenerate, this]
  | false =>
    have hnil : (difference tree new).structural = [] := by
      simpa [Difference.isStructural] using hs
    -- with an instruction the text is patched or written anew
    by_cases hi : (difference tree new).instructions = []
    · simp [reconcile, hs, hi, hnil]
    · rw [reconcile_patches hs hi]
      simp only [hi, and_false, iff_false]
      split
      · simp [regenerate]
      · split <;> simp [regenerate]

/-! ## 3. Saving the tree that was read

Agreeing with itself is no matter of course.  Scalars outside arrays are compared by their literals,
so they always agree with themselves, even a NaN; arrays are compared as values, and a NaN in one is
enough.
-/

/-- **No array holds a NaN,** whatever it holds and wherever it stands. -/
def Value.NumericArrays (tree : Value) : Prop :=
  ∀ path items, tree.at? path = some (.array items) → (Value.array items).Scalars Value.IsNumeric

/-- **A tree agrees with itself** if no array in it holds a NaN.  By induction on the tree; an
array is where the comparison of values begins, and nothing below it is looked at by path. -/
theorem corresponds_self_iff {r : Value → Value → Prop} (hr : ∀ value, r value value)
    {value : Value} : value.WellKeyed → (Corresponds r value value ↔ value.NumericArrays) := by
  induction value using Value.treeInduction with
  | scalar value hs =>
    intro _
    refine iff_of_true (.scalar hs hs (hr value)) fun path items h => ?_
    cases path with
    | nil =>
      obtain rfl : value = .array items := Option.some.inj h
      cases hs
    | cons key path => cases value <;> first | cases h | cases hs
  | array items =>
    intro hw
    -- two arrays agree if they are the same value
    have hself : Corresponds r (.array items) (.array items)
        ↔ (Value.array items).same (.array items) = true := by
      constructor
      · intro h
        cases h with
        | scalar ho => cases ho
        | array h => exact h
      · exact .array
    rw [hself, same_self_iff hw]
    constructor
    · intro h path items' hp
      cases path with
      | nil =>
        obtain rfl : items = items' := by simpa [Value.at?] using hp
        exact h
      | cons key path => cases hp
    · exact fun h => h [] items rfl
  | table entries ih =>
    intro hw
    have hentries := wellKeyedEntries_iff.mp hw.2
    rw [corresponds_table_iff]
    constructor
    · rintro ⟨-, h⟩ path items hp
      cases path with
      | nil => cases Option.some.inj hp
      | cons key path =>
        rw [at?_table] at hp
        obtain ⟨v, hv, hp⟩ := Option.bind_eq_some_iff.mp hp
        have hm := Keyed.find?_mem hv
        exact (ih key v hm (hentries key v hm)).mp (h key v v hv hv) path items hp
    · intro h
      refine ⟨fun _ => rfl, fun key v w hv hw' => ?_⟩
      obtain rfl : v = w := Option.some.inj (hv.symm.trans hw')
      have hm := Keyed.find?_mem hv
      refine (ih key v hm (hentries key v hm)).mpr fun path items hp => ?_
      exact h (key :: path) items (by rw [at?_table, hv]; exact hp)

/-- **Saving the tree that was read** returns the text as it is, and reports that nothing
changed, if and only if no array of the tree holds a NaN.  Otherwise the array counts as a
structural change. -/
theorem save_own_tree_iff {text : List Char} {tree : Value} (h : readRelaxed text = .ok tree) :
    let o := (Document.ofText text).save tree true
    (o.report.mode = .unchanged ∧ o.preserved = true ∧ o.text = text) ↔ tree.NumericArrays := by
  obtain ⟨entries, rfl, hread⟩ := holds_of_readRelaxed h
  have hsave : (Document.ofText text).save (.table entries) true
      = reconcile text (some (.table entries)) (.table entries) true := by
    simp [Document.save, Document.ofText, h, Except.toOption]
  rw [hsave, ← corresponds_self_iff (r := SameLiteral) (fun _ => rfl) hread.1,
    ← difference_eq_empty_iff hread.1]
  constructor
  · exact fun ⟨hm, _⟩ => mode_reconcile_eq_unchanged_iff.mp hm
  · intro hd
    rw [reconcile_of_eq_empty hd]
    exact ⟨rfl, rfl, rfl⟩

/-- A document with numbers in an array is left as it is. -/
theorem save_own_tree_numbers :
    let text := ['x', ' ', '=', ' ', '[', '1', ']', '\n']
    let tree := Value.table [("x", .array [.integer 1])]
    readRelaxed text = .ok tree
      ∧ ((Document.ofText text).save tree true).report.mode = .unchanged
      ∧ ((Document.ofText text).save tree true).text = text := by
  have hread : readRelaxed ['x', ' ', '=', ' ', '[', '1', ']', '\n']
      = .ok (.table [("x", .array [.integer 1])]) := by rfl
  have hnumeric : (Value.table [("x", .array [.integer 1])]).NumericArrays := by
    intro path items hp
    rcases path with _ | ⟨key, path⟩
    · cases hp
    · rw [at?_table, Keyed.find?] at hp
      split at hp
      · cases path with
        | nil =>
          obtain rfl : [Value.integer 1] = items := by simpa [Value.at?] using hp
          exact ⟨trivial, trivial⟩
        | cons => cases hp
      · cases hp
  obtain ⟨hm, -, ht⟩ := (save_own_tree_iff hread).mpr hnumeric
  exact ⟨hread, hm, ht⟩

/-- A document with a NaN in an array is not. -/
theorem save_own_tree_nan :
    let text := ['x', ' ', '=', ' ', '[', 'n', 'a', 'n', ']', '\n']
    let tree := Value.table [("x", .array [.float (.nan false)])]
    readRelaxed text = .ok tree
      ∧ ((Document.ofText text).save tree true).report.mode = .fallback .structuralChange := by
  exact ⟨by rfl, by decide⟩

/-! ## 4. Edits that go unnoticed

Literals do not tell all scalars apart.  For scalars that were read from a text, and any that may be
put in their place, it is known which pairs share one (`literal?_eq_iff`), and so it is known which
edits a save passes over.
-/

/-- Trees that agree for one comparison of scalars agree for any other that is as good on scalars
that can be read. -/
theorem Corresponds.congr {r r' : Value → Value → Prop}
    (hr : ∀ old new : Value, old.IsRead → new.isScalar = true → (r old new ↔ r' old new))
    {old new : Value} (h : Corresponds r old new) :
    old.Holds Value.IsRead → Corresponds r' old new := by
  induction h with
  | scalar ho hn hscalar =>
    intro hold
    exact .scalar ho hn ((hr _ _ ((scalars_of_isScalar ho).mp hold.2) hn).mp hscalar)
  | array h => exact fun _ => .array h
  | table hk hv ih =>
    intro hold
    exact .table hk fun key v w hf hf' => ih key v w hf hf' (hold.of_find? hf)

/-- **A save reports no change** if and only if the new tree agrees with the one that was read,
but for scalars outside arrays that have the same literal: both are written `0`, or the new one
is a date-time with the literal of the old one for its text.  Keys may have moved, and no key is
passed over. -/
theorem save_unchanged_iff {text : List Char} {tree : Value} (h : readRelaxed text = .ok tree)
    (new : Table) :
    ((Document.ofText text).save (.table new) true).report.mode = .unchanged
      ↔ Corresponds Indistinct tree (.table new) := by
  obtain ⟨entries, rfl, hread⟩ := holds_of_readRelaxed h
  have hsave : (Document.ofText text).save (.table new) true
      = reconcile text (some (.table entries)) (.table new) true := by
    simp [Document.save, Document.ofText, h, Except.toOption]
  have hiff : Corresponds SameLiteral (.table entries) (.table new)
      ↔ Corresponds Indistinct (.table entries) (.table new) := by
    constructor
    · exact fun hc => hc.congr (fun _ _ => literal?_eq_iff) hread
    · exact fun hc => hc.congr (fun _ _ ho hn => (literal?_eq_iff ho hn).symm) hread
  rw [hsave, mode_reconcile_eq_unchanged_iff, difference_eq_empty_iff hread.1, hiff]

/-- Keys that have moved are no change. -/
theorem save_unchanged_moved_keys :
    let text := ['a', '=', '1', '\n', 'b', '=', '2', '\n']
    let new : Table := [("b", .integer 2), ("a", .integer 1)]
    readRelaxed text = .ok (.table [("a", .integer 1), ("b", .integer 2)])
      ∧ ((Document.ofText text).save (.table new) true).report.mode = .unchanged := by
  have hread : readRelaxed ['a', '=', '1', '\n', 'b', '=', '2', '\n']
      = .ok (.table [("a", .integer 1), ("b", .integer 2)]) := by rfl
  refine ⟨hread, (save_unchanged_iff hread _).mpr (.table (fun key => ?_) fun key v w hv hw => ?_)⟩
  · by_cases ha : "a" = key <;> by_cases hb : "b" = key <;>
      simp [Keyed.contains, Keyed.find?, ha, hb]
  · by_cases ha : "a" = key
    · subst ha
      simp only [Keyed.find?, if_true, Option.some.injEq] at hv
      have hw' : Value.integer 1 = w := by simpa [Keyed.find?] using hw
      subst hv hw'
      exact .scalar rfl rfl (.same _)
    · by_cases hb : "b" = key
      · subst hb
        have hv' : Value.integer 2 = v := by simpa [Keyed.find?] using hv
        simp only [Keyed.find?, if_true, Option.some.injEq] at hw
        subst hv' hw
        exact .scalar rfl rfl (.same _)
      · simp [Keyed.find?, ha, hb] at hv

/-- A zero that is replaced by a NaN is no change either, though the two differ. -/
theorem save_unchanged_nan :
    let text := ['x', ' ', '=', ' ', '0', '\n']
    let old := Value.table [("x", .integer 0)]
    let new := Value.table [("x", .float (.nan false))]
    readRelaxed text = .ok old
      ∧ ((Document.ofText text).save new true).report.mode = .unchanged
      ∧ old.same new = false := by
  exact ⟨by rfl, by decide, by rfl⟩

end TomlKeep
