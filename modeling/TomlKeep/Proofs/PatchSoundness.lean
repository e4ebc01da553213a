/-
# A patched document reads as the tree that was saved

A save that patches a document writes literals into the lines of its text.  What is read from the
text then is the tree that was to be saved, up to the order of keys (`readRelaxed_of_patched`).

The save plans with two readers that know nothing of each other: the old tree is read by the
grammar, and the lines are found by the scan.  Where the two disagree a patch lands on another
value, and the save does not notice.  So the statement holds of the documents for which they
agree on the values (`scansAsRead`) and on the places of scalars (`findsAsRead`).

Nor does a save notice an edit that puts the integer zero in the place of an infinity or a NaN
(`Unnoticed`), since both have the literal `0`.  In either case the saved text may be read as
another tree (`readRelaxed_patched_another_tree`).
-/
import TomlKeep.Proofs.LiteralLines
import TomlKeep.Proofs.PatchedTrees
import TomlKeep.Proofs.QuotedPatching
import TomlKeep.Proofs.ScalarLeaves

namespace TomlKeep

open Text Toml

/-! ## 1. What a patch brings -/

/-- What stands at a path of a sound value is sound. -/
theorem Value.Holds.at? {p : Value → Prop} : ∀ {path : List String} {value inner : Value},
    value.Holds p → value.at? path = some inner → inner.Holds p
  | [], value, inner, h, hi => by
    obtain rfl := Option.some.inj hi
    exact h
  | key :: path, value, inner, h, hi => by
    cases value with
    | table entries =>
      rw [at?_table] at hi
      obtain ⟨next, hn, hi⟩ := Option.bind_eq_some_iff.mp hi
      exact (h.of_find? hn).at? hi
    | _ => cases hi

/-- **A change is from a scalar to one that can be written.** -/
theorem Changes.exists_writable {old new : Value} {i : Instruction} (h : Changes [] old new i)
    (hnew : new.Holds Value.IsWritable) : (∃ v, old.at? i.path = some v ∧ v.isScalar = true)
      ∧ ∃ w, new.at? i.path = some w ∧ w.literal? = some i.literal ∧ IsLiteral i.literal
        ∧ scalarOf? i.literal = some w := by
  obtain ⟨path, v, w, hp, hv, hw, before, hb, ha, -⟩ := h
  obtain rfl : i.path = path := hp
  have hscalar : w.isScalar = true := isScalar_iff_literal?.mpr ⟨_, ha⟩
  have hwritable : w.IsWritable := (scalars_of_isScalar hscalar).mp (hnew.at? hw).2
  exact ⟨⟨v, hv, isScalar_iff_literal?.mpr ⟨before, hb⟩⟩, w, hw, ha,
    isLiteral_of_literal? hwritable.1 ha, hwritable.scalarOf? ha⟩

/-- What a save has done that reports a patch. -/
theorem patched_of_mode {text : List Char} {old new : Value}
    (h : (reconcile text (some old) new true).report.mode = .patched) :
    (difference old new).structural = []
      ∧ (patchAll text (difference old new).instructions).missed = []
      ∧ (reconcile text (some old) new true).text
        = (patchAll text (difference old new).instructions).text := by
  cases hs : (difference old new).isStructural with
  | true =>
    simp [reconcile, hs, regenerate] at h
  | false =>
    have hstructural : (difference old new).structural = [] := by
      simpa [Difference.isStructural] using hs
    by_cases hi : (difference old new).instructions = []
    · simp [reconcile, hs, hi] at h
    · rw [reconcile_patches hs hi] at h ⊢
      by_cases happlied : (patchAll text (difference old new).instructions).applied = []
      · simp [happlied, regenerate] at h
      · by_cases hmissed : (patchAll text (difference old new).instructions).missed = []
        · simp [happlied, hmissed, hstructural]
        · simp [happlied, hmissed, regenerate] at h

/-- **The instructions of a save can be carried out** on a document that the scan reads and
searches as the grammar does: each is for a scalar of the document and brings a literal that is
read again. -/
theorem patchable_difference {text : List Char} {old new : Table}
    (h : readStrict text = .ok (.table old)) (hscan : scansAsRead text = true)
    (hfind : findsAsRead text (.table old) = true) (hold : (Value.table old).WellKeyed)
    (hnew : (Value.table new).Holds Value.IsWritable) :
    Patchable text (.table old) (difference (.table old) (.table new)).instructions := by
  refine ⟨h, hscan, hfind, ?_, ?_⟩
  · intro i hi
    exact (((mem_difference hold).mp hi).exists_writable hnew).1
  · intro i hi
    obtain ⟨-, w, -, -, hliteral, hw⟩ := ((mem_difference hold).mp hi).exists_writable hnew
    exact ⟨hliteral, w, hw⟩

/-! ## 2. Soundness

The argument has two steps.  Carrying the instructions out amends the tree that is read, scalar
by scalar (`Patchable.exists_patched`).  And a tree that is amended so is the new one, since the
instructions are all that the two trees differ in, but for a zero that goes unnoticed
(`Amended.same_at`).
-/

/-- **A save that could be carried out is read as the new tree.** -/
theorem same_of_patchable {text : List Char} {old new : Table}
    (h : readRelaxed text = .ok (.table old))
    (hpatchable : Patchable (quoteBareWords text) (.table old)
      (difference (.table old) (.table new)).instructions)
    (hnew : (Value.table new).Holds Value.IsWritable)
    (hnoticed : ∀ path, ¬ Unnoticed (.table old) (.table new) path)
    (hmode : ((Document.ofText text).save (.table new) true).report.mode = .patched) :
    ∃ saved, readRelaxed ((Document.ofText text).save (.table new) true).text = .ok saved
      ∧ saved.same (.table new) = true := by
  obtain ⟨entries, he, hold⟩ := holds_of_readRelaxed h
  obtain rfl := Value.table.inj he
  have hsave : (Document.ofText text).save (.table new) true
      = reconcile text (some (.table old)) (.table new) true := by
    rw [Document.save, Document.ofText, h]
    rfl
  rw [hsave] at hmode ⊢
  obtain ⟨hstructural, hmissed, htext⟩ := patched_of_mode hmode
  rw [htext, readRelaxed]
  have hchanges : ∀ i, i ∈ (difference (.table old) (.table new)).instructions
      ↔ Changes [] (.table old) (.table new) i := by
    intro i
    exact mem_difference hold.1
  have hcorresponds : Corresponds AnyScalars (.table old) (.table new) :=
    (structural_eq_nil_iff_corresponds hold.1).mp hstructural
  generalize (difference (.table old) (.table new)).instructions = is
    at hpatchable hmissed hchanges ⊢
  -- the bare words of the patched text are those of the document
  have hwords : ∀ i ∈ is, IsLiteral i.literal ∧ isBareWord i.literal = false := by
    intro i hi
    obtain ⟨hliteral, w, hw⟩ := hpatchable.literal i hi
    exact ⟨hliteral, isBareWord_of_scalarOf? hw⟩
  obtain ⟨hquoted, hsame⟩ := quoteBareWords_patchAll hwords hpatchable.isInline
  obtain ⟨mid, hmid, hshadow, heffect⟩ := hpatchable.exists_patched (hsame.symm.trans hmissed)
  rw [hquoted]
  refine ⟨mid, hmid, ?_⟩
  have hamended : Amended is (.table old) mid (.table new) := by
    refine ⟨hshadow, hchanges, ?_, hnoticed⟩
    intro i hi
    obtain ⟨j, hj, hpath, w, hw, hat⟩ := heffect i hi
    -- both bring the literal of the new tree for their path
    obtain ⟨-, u, hu, hliteral, -, -⟩ := ((hchanges i).mp hi).exists_writable hnew
    obtain ⟨-, u', hu', hliteral', -, -⟩ := ((hchanges j).mp hj).exists_writable hnew
    rw [hpath] at hu'
    obtain rfl : u = u' := Option.some.inj (hu.symm.trans hu')
    obtain hij : i.literal = j.literal := Option.some.inj (hliteral.symm.trans hliteral')
    exact ⟨w, by rw [hij, hw], hat⟩
  have hroot (value : Value) : value.at? [] = some value := rfl
  exact hamended.same_at (hroot _) (hroot _) (hroot _) (fun _ => rfl) hcorresponds hold hnew

/-- **A patched document that is spelled alike reads as the tree that was saved.**  Nothing has
to be known of the scan here: no byte order mark, no string in three quotes in brackets and no
escape that only the grammar knows is enough. -/
theorem readRelaxed_of_patched_spelledAlike {text : List Char} {tree : Value} {new : Table}
    (h : readRelaxed text = .ok tree) (hspelled : spelledAlike (quoteBareWords text) = true)
    (hnew : (Value.table new).Holds Value.IsWritable)
    (hnoticed : ∀ path, ¬ Unnoticed tree (.table new) path)
    (hmode : ((Document.ofText text).save (.table new) true).report.mode = .patched) :
    ∃ saved, readRelaxed ((Document.ofText text).save (.table new) true).text = .ok saved
      ∧ saved.same (.table new) = true := by
  obtain ⟨old, rfl, hold⟩ := holds_of_readRelaxed h
  have hscan := scansAsRead_of_spelledAlike hspelled
  have hfind := findsAsRead_of_spelledAlike h hspelled
  exact same_of_patchable h (patchable_difference h hscan hfind hold.1 hnew) hnew hnoticed hmode

/-- A comment with three quotes and a section whose name has an escape that both readers know. -/
example : spelledAlike (quoteBareWords
    ['[', '"', '\\', 't', '"', ']', ' ', '#', '"', '"', '"', '\n', 'k', '=', 'b', ' ', 'c', '\n'])
      = true := by
  decide +kernel

/-- **A patched document reads as the tree that was saved.**  The document is read as `tree`, the
scan finds its values and the places of its scalars as they are read, and the new tree has
scalars that can be written only.  If saving it reports a patch, and no zero goes unnoticed, then
the saved text is read as the new tree, up to the order of keys. -/
theorem readRelaxed_of_patched {text : List Char} {tree : Value} {new : Table}
    (h : readRelaxed text = .ok tree) (hscan : scansAsRead (quoteBareWords text) = true)
    (hfind : findsAsRead (quoteBareWords text) tree = true)
    (hnew : (Value.table new).Holds Value.IsWritable)
    (hnoticed : ∀ path, ¬ Unnoticed tree (.table new) path)
    (hmode : ((Document.ofText text).save (.table new) true).report.mode = .patched) :
    ∃ saved, readRelaxed ((Document.ofText text).save (.table new) true).text = .ok saved
      ∧ saved.same (.table new) = true := by
  obtain ⟨old, rfl, hold⟩ := holds_of_readRelaxed h
  have hpatchable : Patchable (quoteBareWords text) (.table old)
      (difference (.table old) (.table new)).instructions :=
    patchable_difference h hscan hfind hold.1 hnew
  exact same_of_patchable h hpatchable hnew hnoticed hmode

/-- A bare word, a number in a section and a multi-line string are patched in one save. -/
theorem readRelaxed_of_patched_section :
    let text :=
      ['n', ' ', '=', ' ', 'b', ' ', 'c', ' ', '#', ' ', 'd', '\n', '[', 's', ']', '\n', 'k',
       '=', '1', '\n', 't', '=', '"', '"', '"', 'x', '\n', 'y', '"', '"', '"', '\n']
    let old :=
      Value.table [("n", .string "b c"), ("s", .table [("k", .integer 1), ("t", .string "x\ny")])]
    let new := [("s", Value.table [("t", .string "z"), ("k", .integer 2)]), ("n", .string "b")]
    readRelaxed text = .ok old ∧ scansAsRead (quoteBareWords text) = true
      ∧ findsAsRead (quoteBareWords text) old = true ∧ (Value.table new).Holds Value.IsWritable
      ∧ (∀ path, ¬ Unnoticed old (.table new) path)
      ∧ ((Document.ofText text).save (.table new) true).report.mode = .patched
      ∧ ∃ saved, readRelaxed ((Document.ofText text).save (.table new) true).text = .ok saved
        ∧ saved.same (.table new) = true := by
  intro text old new
  have hread : readRelaxed text = .ok old := by rfl
  have hscan : scansAsRead (quoteBareWords text) = true := by decide +kernel
  have hfind : findsAsRead (quoteBareWords text) old = true := by decide +kernel
  have hnew : (Value.table new).Holds Value.IsWritable := by
    simp [new, Value.Holds, Value.WellKeyed, WellKeyedEntries, Value.Scalars, ScalarsEntries,
      Keyed.keys, Value.IsWritable, Value.isPlain]
  have hnoticed : ∀ path, ¬ Unnoticed old (.table new) path := by
    -- there is no float at all
    have hfloats : old.Holds fun v => ∀ x, v ≠ .float x := by
      simp [old, Value.Holds, Value.WellKeyed, WellKeyedEntries, Value.Scalars, ScalarsEntries,
        Keyed.keys]
    rintro path ⟨⟨x, -, hx⟩, -⟩
    exact (hfloats.at? hx).2 x rfl
  have hmode : ((Document.ofText text).save (.table new) true).report.mode = .patched := by
    decide +kernel
  exact ⟨hread, hscan, hfind, hnew, hnoticed, hmode,
    readRelaxed_of_patched hread hscan hfind hnew hnoticed hmode⟩

/-- The saved text is read as another tree than the one that was saved.  The zero in the place of
a NaN is no change, so only the other value is written.  And the scan takes the escape in a key
for the letters behind the backslash, so the first line is found for the key of the second one
and the patch lands there. -/
theorem readRelaxed_patched_another_tree :
    let text := ['x', '=', 'n', 'a', 'n', '\n', 'y', '=', '1', '\n']
    let new := Value.table [("x", .integer 0), ("y", .integer 2)]
    let saved := Value.table [("x", .float (.nan false)), ("y", .integer 2)]
    let escaped :=
      ['"', '\\', 'u', '0', '0', '6', '1', '"', '=', '1', '\n', 'u', '0', '0', '6', '1', '=',
      '2', '\n']
    let new' := Value.table [("a", .integer 1), ("u0061", .integer 3)]
    let saved' := Value.table [("a", .integer 3), ("u0061", .integer 2)]
    (readRelaxed text = .ok (.table [("x", .float (.nan false)), ("y", .integer 1)])
      ∧ new.Holds Value.IsWritable
      ∧ ((Document.ofText text).save new true).report.mode = .patched
      ∧ readRelaxed ((Document.ofText text).save new true).text = .ok saved
      ∧ saved.same new = false)
    ∧ readRelaxed escaped = .ok (.table [("a", .integer 1), ("u0061", .integer 2)])
      ∧ new'.Holds Value.IsWritable
      ∧ ((Document.ofText escaped).save new' true).report.mode = .patched
      ∧ readRelaxed ((Document.ofText escaped).save new' true).text = .ok saved'
      ∧ saved'.same new' = false := by
  intro text new saved escaped new' saved'
  have hnew : new.Holds Value.IsWritable := by
    simp [new, Value.Holds, Value.WellKeyed, WellKeyedEntries, Value.Scalars, ScalarsEntries,
      Keyed.keys, Value.IsWritable, Value.isPlain]
  have hnew' : new'.Holds Value.IsWritable := by
    simp [new', Value.Holds, Value.WellKeyed, WellKeyedEntries, Value.Scalars, ScalarsEntries,
      Keyed.keys, Value.IsWritable, Value.isPlain]
  exact ⟨⟨by rfl, hnew, by decide +kernel, by rfl, by rfl⟩, by rfl, hnew', by decide +kernel,
    by rfl, by rfl⟩

end TomlKeep
