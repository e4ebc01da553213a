/-
# Patching a text and quoting its bare words

A text is patched before its bare words are put in quotes, and read behind.  The order does not
matter (`quoteBareWords_patchAll`): a bare word is a value of one line, so quoting it is writing
a literal into its place, and neither changes what an instruction means (`Segmented.quoted`).
-/
import TomlKeep.Proofs.QuotedLines

namespace TomlKeep

open Text

/-! ## 1. Writing literals and quoting

Both change values in place, the one those that instructions name and the other the bare words.
Where both would change a value, the literal that is written needs no quotes, so the literal stands
in either order.
-/

/-- Whether the literals may be written into the pieces, and need no quotes. -/
def Writes (literals : Nat → Option (List Char)) (ps : List Piece) : Prop :=
  ∀ n e literal, ps[n]? = some (.entry e) → literals n = some literal →
    e.Fits ∧ IsLiteral literal ∧ isBareWord literal = false

/-- What holds of all pieces holds of those behind the first. -/
theorem Writes.tail {literals : Nat → Option (List Char)} {p : Piece} {ps : List Piece}
    (h : Writes literals (p :: ps)) : Writes (fun n => literals (n + 1)) ps := by
  intro n e literal he hl
  exact h (n + 1) e literal he hl

/-- **A document stays in pieces** when literals are written into places for them.  Each piece is
one in front of whatever follows, so the pieces behind it may change. -/
theorem Segmented.fill : ∀ {ps : List Piece} {literals : Nat → Option (List Char)}, Segmented ps →
    Writes literals ps → Segmented (TomlKeep.fill literals ps)
  | [], _, _, _ => trivial
  | p :: ps, literals, h, hw => by
    have ih := Segmented.fill h.2.2 hw.tail
    rw [fill_cons]
    have hnil : TomlKeep.fill (fun n => literals (n + 1)) ps = [] ↔ ps = [] := by
      rw [TomlKeep.fill, List.mapIdx_eq_nil_iff]
    cases hl : literals 0 with
    | none =>
      exact ⟨fun behind hb => h.1 behind fun hn => hb (hnil.mpr hn), h.2.1.imp hnil.mpr id, ih⟩
    | some literal =>
      cases p with
      | fixed text =>
        exact ⟨fun behind hb => h.1 behind fun hn => hb (hnil.mpr hn), h.2.1.imp hnil.mpr id, ih⟩
      | entry e =>
        obtain ⟨hfits, hlit, -⟩ := hw 0 e literal rfl hl
        exact ⟨fun behind _ => hfits.reads hlit.oneLine behind, h.2.1.imp hnil.mpr id, ih⟩

/-- Writing literals and quoting may be done in either order. -/
theorem map_quoted_fill : ∀ {ps : List Piece} {literals : Nat → Option (List Char)},
    Writes literals ps → (fill literals ps).map Piece.quoted = fill literals (ps.map Piece.quoted)
  | [], _, _ => rfl
  | p :: ps, literals, h => by
    rw [fill_cons, List.map_cons, List.map_cons, fill_cons, map_quoted_fill h.tail]
    congr 1
    cases hl : literals 0 with
    | none => rfl
    | some literal =>
      cases p with
      | fixed text => rfl
      | entry e =>
        obtain ⟨-, -, hno⟩ := h 0 e literal rfl hl
        -- a literal is not quoted again, and it takes the place of a quoted word too
        have hleft : (Piece.entry { e with value := literal }).quoted
            = .entry { e with value := literal } := by
          rw [Piece.quoted, Entry.quoted, if_neg (by simp [hno])]
        have hright : (Piece.entry e).quoted.write literal
            = .entry { e with value := literal } := by
          rw [Piece.quoted, Entry.quoted]
          split <;> rfl
        simp only [Option.map_some, Option.getD_some, hright]
        exact hleft

/-! ## 2. Instructions

Which literals are written is told by the heads of the pieces, and quoting changes none.
-/

/-- What can be filled in the quoted text can be filled in the text. -/
theorem fillable_of_quoted {ps : List Piece} (h : Segmented ps) {i : Instruction}
    (hf : Fillable (ps.map Piece.quoted) i) : Fillable ps i := by
  intro n e hp
  have hfits : e.quoted.Fits := by
    refine hf n e.quoted ?_
    rw [pieceFor?_quoted h, hp]
    rfl
  unfold Entry.quoted at hfits
  split at hfits
  · exact hfits
  · exact hfits

/-- The literals that instructions leave are written into places for them. -/
theorem writes_lastFor? {ps : List Piece} {is : List Instruction}
    (hl : ∀ i ∈ is, IsLiteral i.literal ∧ isBareWord i.literal = false)
    (hf : ∀ i ∈ is, Fillable ps i) :
    Writes (lastFor? (ps.map Piece.head) is) ps := by
  intro n e literal he hlast
  obtain ⟨i, hi, hn, rfl⟩ := mem_of_lastFor? hlast
  exact ⟨hf i hi n e (pieceFor?_eq_some.mpr ⟨hn, he⟩), hl i hi⟩

/-- **A text may be patched first and its bare words quoted then, or the other way round,** if the
instructions bring literals and each of them replaces a value in its line. -/
theorem quoteBareWords_patchAll {text : List Char} {is : List Instruction}
    (hl : ∀ i ∈ is, IsLiteral i.literal ∧ isBareWord i.literal = false)
    (hin : ∀ i ∈ is, ∀ b, planEdit? (quoteBareWords text) i = some b →
      b.isInline (quoteBareWords text) = true) :
    quoteBareWords (patchAll text is).text = (patchAll (quoteBareWords text) is).text
      ∧ (patchAll text is).missed = (patchAll (quoteBareWords text) is).missed := by
  obtain ⟨ps, rfl, hseg⟩ := exists_segmented text
  rw [quoteBareWords_textOf hseg] at hin ⊢
  obtain ⟨hquoted, hheads⟩ := hseg.quoted
  have hfillable : ∀ i ∈ is, Fillable (ps.map Piece.quoted) i := by
    intro i hi
    exact fillable_of_isInline hquoted (hin i hi)
  have hfillable' : ∀ i ∈ is, Fillable ps i := by
    intro i hi
    exact fillable_of_quoted hseg (hfillable i hi)
  have hliterals : ∀ i ∈ is, IsLiteral i.literal := fun i hi => (hl i hi).1
  have hwrites : Writes (lastFor? (ps.map Piece.head) is) ps := writes_lastFor? hl hfillable'
  rw [patchAll_textOf hseg hliterals hfillable', patchAll_textOf hquoted hliterals hfillable,
    hheads]
  constructor
  · rw [quoteBareWords_textOf (hseg.fill hwrites), map_quoted_fill hwrites]
  · simp only [hits_quoted hseg]

end TomlKeep
