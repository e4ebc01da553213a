/-
# The trees that are read

What a text says when it is read is a table with distinct keys at every depth, and its scalars are
those that TOML has: no `null`, and every date-time in canonical form (`holds_of_readStrict`,
`holds_of_readRelaxed`).  The leaves of a term are scalars of this kind (`leaves_of_takeTerm?`), and
entering the statements adds nothing to them (`Toml.Sound.enter?`).
-/
import TomlKeep.Proofs.Entering
import TomlKeep.Proofs.Readers
import TomlKeep.Document

namespace TomlKeep

open Text

/-- **A scalar that can be read:** a date-time is in canonical form, and there is no `null`. -/
def Value.IsRead : Value → Prop
  | .null | .array _ | .table _ => False
  | .datetime text => ∃ source, Datetime.canonical? source = some text.toList
  | .bool _ | .integer _ | .float _ | .string _ => True

namespace Toml

/-! ## 1. The leaves of terms

Each leaf comes from a string or from a token, and a token is read in this order: a truth value, a
number, a date-time.  The last is written down in its canonical form, which is where that form is
guaranteed; arrays and inline tables only hold what their members are.
-/

/-- The value of a token can be read, and is a scalar. -/
theorem isRead_of_tokenValue? {token : List Char} {value : Value}
    (h : tokenValue? token = some value) : value.IsRead ∧ value.isScalar = true := by
  unfold tokenValue? at h
  split at h
  · obtain rfl := Option.some.inj h
    exact ⟨trivial, rfl⟩
  split at h
  · obtain rfl := Option.some.inj h
    exact ⟨trivial, rfl⟩
  split at h
  · next numeral _ =>
    cases numeral with
    | integer n =>
      obtain ⟨-, h⟩ := Option.ite_none_right_eq_some.mp h
      obtain rfl := Option.some.inj h
      exact ⟨trivial, rfl⟩
    | decimal negative significand exponent =>
      obtain ⟨-, h⟩ := Option.ite_none_right_eq_some.mp h
      obtain rfl := Option.some.inj h
      exact ⟨trivial, rfl⟩
    | infinity | nan =>
      obtain rfl := Option.some.inj h
      exact ⟨trivial, rfl⟩
  · obtain ⟨canonical, hc, rfl⟩ := Option.map_eq_some_iff.mp h
    exact ⟨⟨token, by rw [hc, String.toList_ofList]⟩, rfl⟩

/-- A scalar with the property is a sound value. -/
theorem holds_of_isScalar {p : Value → Prop} {value : Value} (hs : value.isScalar = true)
    (h : p value) : value.Holds p := by
  cases value <;> first | exact ⟨trivial, h⟩ | cases hs

/-- A scalar that is taken is a leaf of this kind. -/
theorem leaves_of_takeScalar? {text behind : List Char} {term : Term}
    (h : takeScalar? text = some (term, behind)) : term.Leaves Value.IsRead := by
  unfold takeScalar? at h
  split at h
  · obtain ⟨⟨s, rest⟩, -, he⟩ := Option.map_eq_some_iff.mp h
    obtain ⟨rfl, -⟩ := Prod.mk.inj he
    exact ⟨trivial, trivial⟩
  · obtain ⟨value, hv, he⟩ := Option.map_eq_some_iff.mp h
    obtain ⟨rfl, -⟩ := Prod.mk.inj he
    obtain ⟨hr, hs⟩ := isRead_of_tokenValue? hv
    exact holds_of_isScalar hs hr

/-- The members of a list in brackets are members that were taken. -/
theorem forall_of_takeMembers? {α : Type} {q : α → Prop} {closing : Char}
    {item : List Char → Option (α × List Char)}
    (hq : ∀ text result behind, item text = some (result, behind) → q result) :
    ∀ {bound : Nat} {text behind : List Char} {results : List α},
      takeMembers? closing item bound text = some (results, behind) → ∀ r ∈ results, q r
  | 0, _, _, _, h => by cases h
  | bound + 1, text, behind, results, h => by
    rw [takeMembers?] at h
    obtain ⟨inside, -, h⟩ := Option.bind_eq_some_iff.mp h
    split at h
    · obtain ⟨rfl, -⟩ := Prod.mk.inj (Option.some.inj h)
      simp
    · obtain ⟨⟨result, rest⟩, hi, h⟩ := Option.bind_eq_some_iff.mp h
      obtain ⟨rest', -, h⟩ := Option.bind_eq_some_iff.mp h
      -- the member is one that was taken, and so are those behind the comma
      have hresult : q result := hq _ _ _ hi
      unfold goOn at h
      split at h
      · obtain ⟨rfl, -⟩ := Prod.mk.inj (Option.some.inj h)
        simpa using hresult
      · obtain ⟨-, h⟩ := Option.ite_none_right_eq_some.mp h
        obtain ⟨⟨more, behind'⟩, hm, he⟩ := Option.map_eq_some_iff.mp h
        obtain ⟨rfl, -⟩ := Prod.mk.inj he
        exact List.forall_mem_cons.mpr ⟨hresult, forall_of_takeMembers? hq hm⟩

/-- Items with such leaves make an array with such leaves. -/
theorem leavesItems_of_forall {p : Value → Prop} {items : List Term}
    (h : ∀ term ∈ items, term.Leaves p) : LeavesItems p items := by
  induction items with
  | nil => trivial
  | cons term rest ih =>
    obtain ⟨hterm, hrest⟩ := List.forall_mem_cons.mp h
    exact ⟨hterm, ih hrest⟩

/-- Entries with such leaves make an inline table with such leaves. -/
theorem leavesEntries_of_forall {p : Value → Prop} {entries : List (List String × Term)}
    (h : ∀ e ∈ entries, e.2.Leaves p) : LeavesEntries p entries := by
  induction entries with
  | nil => trivial
  | cons e rest ih =>
    obtain ⟨hterm, hrest⟩ := List.forall_mem_cons.mp h
    exact ⟨hterm, ih hrest⟩

/-- The term of an entry is one that was taken. -/
theorem leaves_of_takeBinding? {p : Value → Prop} {skip? : List Char → Option (List Char)}
    {item : List Char → Option (Term × List Char)}
    (hi : ∀ text term behind, item text = some (term, behind) → term.Leaves p)
    (text : List Char) (entry : List String × Term) (behind : List Char)
    (h : takeBinding? skip? item text = some (entry, behind)) : entry.2.Leaves p := by
  rw [takeBinding?_eq] at h
  obtain ⟨⟨path, text1⟩, -, h⟩ := Option.bind_eq_some_iff.mp h
  obtain ⟨text2, -, h⟩ := Option.bind_eq_some_iff.mp h
  obtain ⟨-, h⟩ := Option.ite_none_right_eq_some.mp h
  obtain ⟨text3, -, h⟩ := Option.bind_eq_some_iff.mp h
  obtain ⟨⟨term, text4⟩, ht, he⟩ := Option.map_eq_some_iff.mp h
  obtain ⟨rfl, -⟩ := Prod.mk.inj he
  exact hi _ _ _ ht

/-- **The leaves of a term** are scalars that can be read.  By induction on the levels, for any
text. -/
theorem leaves_of_takeTerm? : ∀ (levels : Nat) (text : List Char) (term : Term)
    (behind : List Char), takeTerm? levels text = some (term, behind) → term.Leaves Value.IsRead
  | 0, _, _, _, h => leaves_of_takeScalar? h
  | levels + 1, text, term, behind, h => by
    have ih := leaves_of_takeTerm? levels
    rw [takeTerm?_succ] at h
    split at h
    · rw [takeItems?_eq] at h
      obtain ⟨⟨items, rest⟩, ht, he⟩ := Option.map_eq_some_iff.mp h
      obtain ⟨rfl, -⟩ := Prod.mk.inj he
      exact leavesItems_of_forall (forall_of_takeMembers? ih ht)
    · split at h
      · rw [takeEntries?_eq] at h
        obtain ⟨⟨entries, rest⟩, ht, he⟩ := Option.map_eq_some_iff.mp h
        obtain ⟨rfl, -⟩ := Prod.mk.inj he
        exact leavesEntries_of_forall (forall_of_takeMembers? (leaves_of_takeBinding? ih) ht)
      · exact leaves_of_takeScalar? h

/-! ## 2. Statements and documents

A document is read as statements, and they are entered one by one.  Entering was shown to keep what
the leaves have, so what remains is that each statement has leaves of the kind.
-/

/-- The leaves of a statement can be read. -/
theorem leaves_of_takeStatement? {text behind : List Char} {statement : Statement}
    (h : takeStatement? text = some (statement, behind)) : statement.Leaves Value.IsRead := by
  unfold takeStatement? at h
  split at h
  · -- a header has no leaves
    cases statement with
    | header => trivial
    | entry path term =>
      unfold takeHeader? at h
      split at h <;> split at h <;> cases h
  · obtain ⟨⟨⟨path, term⟩, rest⟩, ht, he⟩ := Option.map_eq_some_iff.mp h
    obtain ⟨rfl, -⟩ := Prod.mk.inj he
    exact leaves_of_takeBinding? (leaves_of_takeTerm? maxNesting) _ _ _ ht

/-- So can those of all statements of a text, by induction on the rounds of the reader. -/
theorem leaves_of_readLines? : ∀ {bound : Nat} {text : List Char} {statements : List Statement},
    readLines? bound text = some statements → ∀ s ∈ statements, s.Leaves Value.IsRead
  | 0, _, _, h => by cases h
  | bound + 1, text, statements, h => by
    rw [readLines?] at h
    split at h
    · obtain rfl := Option.some.inj h
      simp
    · split at h
      · split at h
        · cases h
        · exact leaves_of_readLines? h
      · split at h
        · cases h
        · next ht =>
          split at h
          · cases h
          · obtain ⟨others, ho, rfl⟩ := Option.map_eq_some_iff.mp h
            exact List.forall_mem_cons.mpr ⟨leaves_of_takeStatement? ht, leaves_of_readLines? ho⟩

/-- **The table of a document is sound:** distinct keys, and scalars that can be read. -/
theorem holds_of_read? {text : List Char} {entries : Table} (h : read? text = some entries) :
    (Value.table entries).Holds Value.IsRead := by
  unfold read? at h
  split at h
  · cases h
  · next hs =>
    obtain ⟨nodes, hn, rfl⟩ := Option.map_eq_some_iff.mp h
    exact Sound.enter? (leaves_of_readLines? hs) sound_empty hn

end Toml

/-- **What a text says** is a table with distinct keys and scalars that can be read.  Nothing is
asked of the text but that it can be read. -/
theorem holds_of_readStrict {text : List Char} {tree : Value} (h : readStrict text = .ok tree) :
    ∃ entries, tree = .table entries ∧ tree.Holds Value.IsRead := by
  unfold readStrict at h
  split at h
  · next entries hr =>
    obtain rfl := Except.ok.inj h
    exact ⟨entries, rfl, Toml.holds_of_read? hr⟩
  · cases h

/-- The same for a text in which bare words may stand for strings. -/
theorem holds_of_readRelaxed {text : List Char} {tree : Value} (h : readRelaxed text = .ok tree) :
    ∃ entries, tree = .table entries ∧ tree.Holds Value.IsRead :=
  holds_of_readStrict h

end TomlKeep
