/-
# Where a line is looked for, and where it is read

The search for a target takes a line to be the entry of a path: of the header above it and of the
key in it (`scannedPath?`).  The grammar reads the line as the entry of a path too (`entryAt?`).
The two paths need not be the same, and a line may be mistaken for the entry of another path:

* the escapes of a key in quotes are those of a string for the grammar, but only a few for the
  search;
* behind a byte order mark, no header and no key in quotes is found, and the mark is part of any
  other key.

A document can be patched safely if no line is mistaken for the entry of a scalar
(`findsAsRead`).  That is so for every document without a mark whose keys are spelled alike for
both (`findsAsRead_of_sharedEscapes`), and so for all that pass a test of the text alone
(`spelledAlike`).
-/
import TomlKeep.Proofs.BareWords
import TomlKeep.Proofs.OtherValues
import TomlKeep.Proofs.Targets

namespace TomlKeep

open Text Toml

/-! ## 1. The two paths of a line

Both paths are functions of a position, one of the heads that the scan has found and one of the
statements that the grammar has read.  They are compared position by position, so nothing has to be
said about texts.
-/

/-- The path of keys for which the search takes the line at a position to be the entry. -/
def scannedPath? (heads : List Head) (n : Nat) : Option (List String) :=
  match governing none heads n, heads[n]? with
  | none, some (.key ⟨[key]⟩) => some [key]
  | some h, some (.key ⟨[key]⟩) => if h.array then none else some (h.path.parts ++ [key])
  | _, _ => none

/-- What answers a target is taken for its entry. -/
theorem scannedPath?_of_answers {i : Instruction} {heads : List Head} {n : Nat}
    (h : Answers i.target i.key heads n) : scannedPath? heads n = some i.path := by
  obtain ⟨hopen, path, hhead, hsingle⟩ := h
  obtain ⟨parts⟩ := path
  obtain rfl : parts = [i.key] := by simpa [KeyPath.isSingle] using hsingle
  rw [scannedPath?, hhead, Instruction.path]
  cases hg : governing none heads n with
  | none =>
    rw [hg] at hopen
    have hroot : i.target.parts = [] := by
      simpa [opensSection, SectionPath.isRoot] using hopen
    rw [hroot]
    rfl
  | some d =>
    rw [hg] at hopen
    simp only [opensSection, Bool.and_eq_true, Bool.not_eq_true', beq_iff_eq] at hopen
    simp [hopen.1.2, hopen.2]

namespace Toml

/-- The entry that is read at a position, with the keys of its section in front of its own. -/
def entryAt? : (current : List String) → List (Option Statement) → Nat → Option (List String × Term)
  | _, [], _ => none
  | current, some (.entry path term) :: _, 0 => some (current ++ path, term)
  | _, _ :: _, 0 => none
  | current, none :: rest, n + 1 => entryAt? current rest n
  | current, some statement :: rest, n + 1 => entryAt? (statement.section current) rest n

/-- The entry at a position is one of the entries of the document. -/
theorem mem_entryPaths_of_entryAt? :
    ∀ {current : List String} {ss : List (Option Statement)} {n : Nat}
    {e : List String × Term}, entryAt? current ss n = some e →
      e ∈ entryPaths current (ss.filterMap id)
  | _, [], _, _, h => by cases h
  | current, some (.entry path term) :: rest, 0, e, h => by
    obtain rfl := Option.some.inj h
    exact List.mem_cons_self
  | _, none :: _, 0, _, h => by cases h
  | _, some (.header _ _) :: _, 0, _, h => by cases h
  | current, none :: rest, n + 1, e, h => by
    have hm : e ∈ entryPaths current (rest.filterMap id) := mem_entryPaths_of_entryAt? h
    exact hm
  | current, some (.entry path term) :: rest, n + 1, e, h => by
    have hm : e ∈ entryPaths current (rest.filterMap id) := mem_entryPaths_of_entryAt? h
    exact List.mem_cons_of_mem _ hm
  | current, some (.header path array) :: rest, n + 1, e, h => by
    have hm : e ∈ entryPaths path (rest.filterMap id) := mem_entryPaths_of_entryAt? h
    exact hm

/-! ## 2. Statements with other values

A document whose values are written over has the same statements at the same positions.  What is
known of the values at each position is what the runs of the two documents need to be compared.
-/

/-- The same statement, or an entry of the same key. -/
inductive Reworded : Option Statement → Option Statement → Prop where
  | refl (s : Option Statement) : Reworded s s
  | entry (path : List String) (a b : Term) : Reworded (some (.entry path a)) (some (.entry path b))

/-- **Statements that are reworded position by position** differ in the values of their entries
only. -/
theorem statementsAlike_of_reworded {r : List String → Value → Value → Prop} :
    ∀ {current : List String} {ss ts : List (Option Statement)}, List.Forall₂ Reworded ss ts →
      (∀ n path a b, entryAt? current ss n = some (path, a) →
        entryAt? current ts n = some (path, b) →
        ∀ v, a.value? = some v → ∃ w, b.value? = some w ∧ r path v w) →
      StatementsAlike r current (ss.filterMap id) (ts.filterMap id)
  | _, [], [], .nil, _ => .nil
  | current, s :: ss, t :: ts, .cons hst hrest, h => by
    -- the statement is the same, or an entry of the same key
    cases hst with
    | refl =>
      cases s with
      | none =>
        have hlater : StatementsAlike r current (ss.filterMap id) (ts.filterMap id) :=
          statementsAlike_of_reworded hrest fun n => h (n + 1)
        exact hlater
      | some statement =>
        cases statement with
        | entry path term =>
          exact .entry (h 0 _ _ _ rfl rfl) (statementsAlike_of_reworded hrest fun n => h (n + 1))
        | header path array =>
          exact .header (statementsAlike_of_reworded hrest fun n => h (n + 1))
    | entry path a b =>
      exact .entry (h 0 _ _ _ rfl rfl) (statementsAlike_of_reworded hrest fun n => h (n + 1))

end Toml

/-! ## 3. Documents whose scalars are found

Only lines that the search takes for the entry of a scalar can be patched, so only they have to be
read as it takes them.  A line in an array of tables or of a key in parts is never taken for
anything.
-/

/-- What the search sees of the blocks of a document; a byte order mark belongs to the first
line. -/
def scannedHeads (marked : Bool) (bs : List Block) : List Head :=
  if marked then
    (Piece.fixed (byteOrderMark :: blocksText (bs.take 1))).head
      :: (bs.drop 1).map fun b => (Piece.fixed b.text).head
  else bs.map fun b => (Piece.fixed b.text).head

/-- **Whether no line is mistaken for the entry of a scalar.**  A line that the search takes to
be the entry of a scalar of the tree is read as the entry of that scalar; the line of a byte
order mark is not taken for one. -/
def findsAsRead (text : List Char) (tree : Value) : Bool :=
  let marked := startsIn (· == byteOrderMark) text
  (blocks? (withoutMark text)).all fun bs =>
    (List.range (scannedHeads marked bs).length).all fun n =>
      (scannedPath? (scannedHeads marked bs) n).all fun path =>
        !(tree.at? path).any Value.isScalar
          || (!marked || n != 0) && (entryAt? [] (bs.map Block.statement?) n).any (·.1 == path)

/-- What the search and the grammar see of a block that is spelled alike for both. -/
inductive SeenAlike : Option Statement → Head → Prop where
  | blank : SeenAlike none .other
  | header (h : Header) : SeenAlike (some (.header h.path.parts h.array)) (.header h)
  | entry (key : KeyPath) (term : Term) : SeenAlike (some (.entry key.parts term)) (.key key)

/-- **A block is seen alike** if its key has no escapes but those that both know.  Then the names
that the two readers give to it are the same. -/
theorem Block.IsPiece.seenAlike {b : Block} {p : Piece} {behind : List Char} (h : b.IsPiece p)
    (hr : p.Reads behind) (he : sharedEscapes .outside b.lead = true) :
    SeenAlike b.statement? p.head := by
  cases h with
  | blank hhead =>
    rw [hhead]
    exact .blank
  | header hlead hhead =>
    rw [hhead, ← hlead.agree.mpr he]
    exact .header _
  | entry hlead _ =>
    rw [Entry.Reads.head hr, ← hlead.agree.mpr he]
    exact .entry _ _
  | brackets hlead _ _ hkey _ =>
    rw [Entry.Reads.head hr, hkey, ← hlead.agree.mpr he]
    exact .entry _ _

/-- The section behind a header, or at the beginning of a document. -/
def sectionBehind : Option Header → List String
  | none => []
  | some h => h.path.parts

/-- **What is seen alike is looked for where it is read.**  The section of the grammar and the
governing header of the scan are carried along together. -/
theorem entryAt?_of_seenAlike : ∀ {ss : List (Option Statement)} {heads : List Head},
    List.Forall₂ SeenAlike ss heads → ∀ (above : Option Header) {n : Nat} {key : KeyPath},
      heads[n]? = some (.key key) → ∃ term, entryAt? (sectionBehind above) ss n
        = some (sectionBehind (governing above heads n) ++ key.parts, term)
  | [], [], .nil, _, _, _, hn => by cases hn
  | _ :: ss, _ :: heads, .cons h hrest, above, 0, key, hn => by
    obtain rfl := Option.some.inj hn
    cases h with
    | entry _ term => exact ⟨term, rfl⟩
  | _ :: ss, _ :: heads, .cons h hrest, above, n + 1, key, hn => by
    cases h with
    | blank => exact entryAt?_of_seenAlike hrest above hn
    | header d => exact entryAt?_of_seenAlike hrest (some d) hn
    | entry => exact entryAt?_of_seenAlike hrest above hn

/-- The path for which a line is taken, where it is read as an entry. -/
theorem exists_of_scannedPath? {heads : List Head} {n : Nat} {path : List String}
    (h : scannedPath? heads n = some path) : ∃ key, heads[n]? = some (.key key)
      ∧ path = sectionBehind (governing none heads n) ++ key.parts := by
  unfold scannedPath? at h
  split at h
  · next hg hhead =>
    rw [hg]
    exact ⟨_, hhead, (Option.some.inj h).symm⟩
  · next d _ hg hhead =>
    obtain ⟨-, h⟩ := Option.ite_none_left_eq_some.mp h
    rw [hg]
    exact ⟨_, hhead, (Option.some.inj h).symm⟩
  · cases h

/-- All blocks of a document are seen alike if their keys are spelled so. -/
theorem forall₂_seenAlike :
    ∀ {bs : List Block} {ps : List Piece}, List.Forall₂ Block.IsPiece bs ps →
    Segmented ps → (∀ b ∈ bs, sharedEscapes .outside b.lead = true) →
      List.Forall₂ SeenAlike (bs.map Block.statement?) (ps.map Piece.head)
  | _, _, .nil, _, _ => .nil
  | _, _, .cons hp hps, hseg, he => by
    obtain ⟨hb, hbs⟩ := List.forall_mem_cons.mp he
    exact .cons (hp.seenAlike hseg.reads hb) (forall₂_seenAlike hps hseg.2.2 hbs)

/-- The heads of the pieces are those of the blocks. -/
theorem map_head_eq {bs : List Block} {ps : List Piece} (h : List.Forall₂ Block.IsPiece bs ps) :
    ps.map Piece.head = bs.map fun b => (Piece.fixed b.text).head := by
  induction h with
  | nil => rfl
  | cons hp _ ih =>
    rw [List.map_cons, List.map_cons, ih, ← hp.text]
    rfl

/-- **A document without a mark is looked for where it is read** if its keys and headers have no
escapes but those that the search and the grammar read alike. -/
theorem findsAsRead_of_sharedEscapes {text : List Char} {tree : Value}
    (h : readStrict text = .ok tree) (hm : startsIn (· == byteOrderMark) text = false)
    (hs : scansAsRead text = true)
    (he : ∀ bs, blocks? text = some bs → ∀ b ∈ bs, sharedEscapes .outside b.lead = true) :
    findsAsRead text tree = true := by
  obtain ⟨bs, hbs, hdoc, -⟩ := exists_document h
  have htext : withoutMark text = text := by rw [withoutMark, hm, if_neg Bool.false_ne_true]
  simp only [scansAsRead, hbs, Option.all_some, Bool.and_eq_true, List.all_eq_true,
    decide_eq_true_eq] at hs
  obtain ⟨ps, hps, hseg⟩ := hdoc.exists_segmented hs.1
  have halike := forall₂_seenAlike hps hseg (he bs (htext ▸ hbs))
  rw [map_head_eq hps] at halike
  simp only [findsAsRead, hbs, Option.all_some, hm, scannedHeads, Bool.false_eq_true, if_false,
    List.all_eq_true]
  intro n _
  cases hpath : scannedPath? (bs.map fun b => (Piece.fixed b.text).head) n with
  | none => rfl
  | some path =>
    -- the line has a key, and the grammar reads it under the same section
    obtain ⟨key, hkey, rfl⟩ := exists_of_scannedPath? hpath
    obtain ⟨term, hterm⟩ := entryAt?_of_seenAlike halike none hkey
    have hentry : entryAt? [] (bs.map Block.statement?) n = some (_, term) := hterm
    simp [hentry]

/-! ## 4. Documents that are spelled alike

What the scan and the search find is computed from a document here, with conditions that can be
read off its text: no byte order mark, no string in three quotes in brackets, and no escape in a
key or a header but those that both readers know.
-/

/-- **Whether a document shows that nothing in it is mistaken.** -/
def spelledAlike (text : List Char) : Bool :=
  !startsIn (· == byteOrderMark) text && (blocks? text).all fun bs => bs.all fun b =>
    sharedEscapes .outside b.lead
      && !(isBracketed b.value && hasTriple .outside (b.value ++ b.rest))

/-- What the test looks for, in words: no mark, shared escapes, and no three quotes in brackets. -/
theorem spelledAlike_iff {text : List Char} : spelledAlike text = true
    ↔ startsIn (· == byteOrderMark) text = false ∧ ∀ bs, blocks? text = some bs → ∀ b ∈ bs,
      sharedEscapes .outside b.lead = true
        ∧ (isBracketed b.value = true → hasTriple .outside (b.value ++ b.rest) = false) := by
  simp only [spelledAlike, Bool.and_eq_true, Bool.not_eq_true', Option.all_eq_true,
    List.all_eq_true, Bool.and_eq_false_imp]

/-- The scan reads such a document as the grammar does: without three quotes in brackets there is
nothing that spoils a count. -/
theorem scansAsRead_of_spelledAlike {text : List Char} (h : spelledAlike text = true) :
    scansAsRead text = true := by
  obtain ⟨hmark, hblocks⟩ := spelledAlike_iff.mp h
  have htext : withoutMark text = text := by rw [withoutMark, hmark, if_neg Bool.false_ne_true]
  rw [scansAsRead, htext, Option.all_eq_true]
  intro bs hbs
  rw [hmark, Bool.not_false, Bool.true_or, Bool.and_true, List.all_eq_true]
  intro b hb
  rw [decide_eq_true_eq]
  intro hbracketed htriple
  rw [(hblocks bs hbs b hb).2 hbracketed] at htriple
  cases htriple

/-- And the search looks for its scalars where they are read. -/
theorem findsAsRead_of_spelledAlike {text : List Char} {tree : Value}
    (h : readStrict text = .ok tree) (hs : spelledAlike text = true) :
    findsAsRead text tree = true := by
  obtain ⟨hmark, hblocks⟩ := spelledAlike_iff.mp hs
  refine findsAsRead_of_sharedEscapes h hmark (scansAsRead_of_spelledAlike hs) ?_
  intro bs hbs b hb
  exact (hblocks bs hbs b hb).1

end TomlKeep
