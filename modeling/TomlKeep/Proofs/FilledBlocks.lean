/-
# Blocks with literals in the place of values

A literal that is written in the place of a value is read as a scalar in front of whatever the
value stood in front of (`stands_of_isLiteral`).  So a document whose blocks take literals is a
document again (`IsDocument.fill`), its pieces are the blocks with the literals written into them
(`forall₂_isPiece_fill`), and its statements are those of before, but for the values
(`entryAt?_fillBlocks`).
-/
import TomlKeep.Proofs.Locating
import TomlKeep.Proofs.Sequential
import TomlKeep.Proofs.WrittenTerms

namespace TomlKeep

open Text Toml

/-! ## 1. What stands behind a value

A value may be replaced by another one only if the reader stops behind it where it stopped before.
What follows is the rest of a line: a gap, a comment or a line end, none of which a scalar could go
on with.
-/

/-- The rest of a line begins with a gap, a comment or a line end. -/
theorem LineRest.begins {rest behind : List Char} (h : LineRest rest) (hb : MayFollow rest behind)
    {c : Char} (hc : (rest ++ behind).head? = some c) :
    isGap c = true ∨ c = '\n' ∨ c = '\r' ∨ c = '#' := by
  cases hg : isGap c with
  | true => exact .inl rfl
  | false =>
    refine .inr (h.head hb ?_)
    rw [← List.nil_append (rest ++ behind), dropWhile_gap (fun _ hm => absurd hm List.not_mem_nil)]
    · exact hc
    · intro d hd
      obtain rfl : c = d := Option.some.inj (hc.symm.trans hd)
      exact hg

/-- **The rest of a line ends a value.** -/
theorem LineRest.endsValue {rest behind : List Char} (h : LineRest rest)
    (hb : MayFollow rest behind) :
    EndsValue (rest ++ behind) := by
  refine ⟨?_, ⟨?_, ?_⟩, ?_⟩
  · intro c hc
    rcases h.begins hb hc with hg | rfl | rfl | rfl
    · simp [isTokenChar, hg]
    all_goals decide
  · intro hc
    have := h.begins hb hc
    revert this
    decide
  · intro hc
    have := h.begins hb hc
    revert this
    decide
  · intro hspace
    -- behind the space the line goes on with a gap, a comment or its end
    have htext := eq_cons_of_startsIn hspace
    have hdrop : (rest ++ behind).dropWhile isGap = ((rest ++ behind).drop 1).dropWhile isGap := by
      conv_lhs => rw [htext]
      exact List.dropWhile_cons_of_pos (by decide)
    cases hmore : (rest ++ behind).drop 1 with
    | nil => rfl
    | cons c more =>
      rw [startsIn]
      cases hg : isGap c with
      | true =>
        simp only [isGap, Bool.or_eq_true, beq_iff_eq] at hg
        rcases hg with rfl | rfl <;> decide
      | false =>
        have hhead : ((rest ++ behind).dropWhile isGap).head? = some c := by
          rw [hdrop, hmore, List.dropWhile_cons_of_neg (by simp [hg])]
          rfl
        rcases h.head hb hhead with rfl | rfl | rfl <;> decide

/-- The line goes on behind a value with a gap and a comment only. -/
theorem LineRest.isInline {value rest behind : List Char} (h : LineRest rest)
    (hb : MayFollow rest behind) (hv : isBracketed value = false) :
    TomlKeep.isInline value (rest ++ behind) = true := by
  obtain ⟨gap, comment, ending, rfl, ht, hn, hret, hend⟩ := h.exists_parts
  -- the rest of the line is all that its first line has
  have hfirst : TomlKeep.firstContent (gap ++ comment ++ ending.chars ++ behind)
      = gap ++ comment := by
    have hstop : TomlKeep.firstContent (ending.chars ++ behind) = [] := by
      cases hcase : ending with
      | none =>
        rw [hend behind hb hcase]
        rfl
      | lf | crlf => rfl
    rw [List.append_assoc, (lines_piece hn (fun hl => hret (List.mem_of_mem_getLast? hl)) _).1,
      hstop, List.append_nil]
  have hcomment : (gap ++ comment).dropWhile isGap = comment := by
    refine dropWhile_gap ht.gap ?_
    intro c hc
    obtain rfl := ht.comment c hc
    decide
  have hhash : (comment.isEmpty || startsIn (· == '#') comment) = true := by
    cases comment with
    | nil => rfl
    | cons c comment =>
      obtain rfl := ht.comment c rfl
      rfl
  rw [TomlKeep.isInline]
  unfold isBracketed at hv
  rw [hv]
  unfold TomlKeep.firstContent at hfirst
  split
  · simp
  · next line _ hl =>
    rw [hl] at hfirst
    have hcontent : line.content = gap ++ comment := hfirst
    simp only [hcontent, hcomment, hhash, Bool.or_true, Bool.not_false, Bool.and_self]

/-- **A literal is read as its scalar,** whatever the rest of the line. -/
theorem stands_of_isLiteral {literal rest : List Char} {value : Value} (hl : IsLiteral literal)
    (hv : scalarOf? literal = some value) (hr : LineRest rest) :
    Stands literal rest (.leaf value) := by
  have hline := hl.oneLine
  refine ⟨fun c hc => hline.ends c (.inl hc), hline.ne_nil, ?_⟩
  intro behind hb
  exact takeTerm?_literal hl hv (hr.endsValue hb) _

/-! ## 2. A block with another value

Writing into a block is writing into its piece, and into its statement the scalar that the literal
is read as.  Entries keep their lead and the rest of their line; other blocks take no literal.
-/

/-- The block with a literal in the place of its value, if it is an entry. -/
def Block.write (literal : List Char) (b : Block) : Block :=
  match b.statement?, scalarOf? literal with
  | some (.entry path _), some value =>
    { b with value := literal, statement? := some (.entry path (.leaf value)) }
  | _, _ => b

/-- **A block that takes a literal:** an entry whose value is neither an array nor an inline
table, and a literal that can be read. -/
structure Block.Takes (b : Block) (literal : List Char) : Prop where
  entry : ∃ path term, b.statement? = some (.entry path term)
  bracket : isBracketed b.value = false
  isLiteral : IsLiteral literal
  scalar : ∃ value, scalarOf? literal = some value

namespace Block

variable {b : Block} {p : Piece} {literal : List Char}

/-- The rest of the line is kept. -/
theorem write_rest (literal : List Char) (b : Block) : (b.write literal).rest = b.rest := by
  unfold write
  split <;> rfl

/-- What is written into a block that takes the literal. -/
theorem Takes.write_eq (h : b.Takes literal) :
    ∃ path term value, b.statement? = some (.entry path term) ∧ scalarOf? literal = some value
      ∧ b.write literal
        = { b with value := literal, statement? := some (.entry path (.leaf value)) } := by
  obtain ⟨path, term, hs⟩ := h.entry
  obtain ⟨value, hv⟩ := h.scalar
  exact ⟨path, term, value, hs, hv, by rw [write, hs, hv]⟩

/-- The block is formed with the new value. -/
theorem Formed.write (h : b.Formed) (ht : b.Takes literal) : (b.write literal).Formed := by
  obtain ⟨path, term, value, hs, hv, hw⟩ := ht.write_eq
  rw [hw]
  cases h with
  | blank | header => cases hs
  | entry hlead hr =>
    obtain ⟨rfl, -⟩ := Statement.entry.inj (Option.some.inj hs)
    exact .entry hlead hr (stands_of_isLiteral ht.isLiteral hv hr)

/-- It is not empty, since no literal is. -/
theorem Takes.text_ne_nil (h : b.Takes literal) : (b.write literal).text ≠ [] := by
  obtain ⟨path, term, value, -, -, hw⟩ := h.write_eq
  rw [hw, text]
  simp [h.isLiteral.oneLine.ne_nil]

/-- **A literal is written into a block as it is into its piece.** -/
theorem IsPiece.write (h : b.IsPiece p) (ht : b.Takes literal) :
    (b.write literal).IsPiece (p.write literal) := by
  obtain ⟨path, term, value, hs, -, hw⟩ := ht.write_eq
  rw [hw]
  cases h with
  | blank | header => cases hs
  | entry hlead _ =>
    obtain ⟨rfl, -⟩ := Statement.entry.inj (Option.some.inj hs)
    refine .entry hlead ?_
    have hbracket := ht.isLiteral.oneLine.startsIn_bracket []
    rwa [List.append_nil] at hbracket
  | brackets _ hbracket =>
    rw [ht.bracket] at hbracket
    cases hbracket

/-- The piece of a block that takes a literal is an entry that stands in front of the rest of its
line. -/
theorem IsPiece.exists_entry (h : b.IsPiece p) (hf : b.Formed) (ht : b.Takes literal) : ∃ e : Entry,
    p = .entry e ∧ LineRest e.rest ∧ isBracketed e.value = false := by
  obtain ⟨path, term, hs⟩ := ht.entry
  cases h with
  | blank | header => cases hs
  | entry _ hbracket =>
    cases hf with
    | entry _ hr => exact ⟨_, rfl, hr, hbracket⟩
  | brackets _ hbracket =>
    rw [ht.bracket] at hbracket
    cases hbracket

end Block

/-! ## 3. A document with other values

The literals are given by position, as they are for pieces.  All that is shown of one block carries
over to the document: it is a document again, of the filled pieces, and its statements differ in
their values.
-/

/-- The blocks with literals in the place of values. -/
def fillBlocks (literals : Nat → Option (List Char)) (bs : List Block) : List Block :=
  bs.mapIdx fun n b => ((literals n).map b.write).getD b

/-- The literal of the first block, and those of the others. -/
theorem fillBlocks_cons (literals : Nat → Option (List Char)) (b : Block) (bs : List Block) :
    fillBlocks literals (b :: bs)
      = ((literals 0).map b.write).getD b :: fillBlocks (fun n => literals (n + 1)) bs := by
  simp [fillBlocks, List.mapIdx_cons]

/-- Whether the blocks take the literals. -/
def TakeAll (literals : Nat → Option (List Char)) (bs : List Block) : Prop :=
  ∀ n b literal, bs[n]? = some b → literals n = some literal → b.Takes literal

/-- What all blocks take, those behind the first take. -/
theorem TakeAll.tail {literals : Nat → Option (List Char)} {b : Block} {bs : List Block}
    (h : TakeAll literals (b :: bs)) : TakeAll (fun n => literals (n + 1)) bs := by
  intro n c literal hc hl
  exact h (n + 1) c literal hc hl

/-- **A document with other values is a document.** -/
theorem IsDocument.fill : ∀ {bs : List Block} {literals : Nat → Option (List Char)}, IsDocument bs →
    TakeAll literals bs → IsDocument (fillBlocks literals bs)
      ∧ (blocksText bs = [] → blocksText (fillBlocks literals bs) = [])
  | [], _, _, _ => ⟨trivial, fun _ => rfl⟩
  | b :: bs, literals, ⟨hform, hne, hfollow, hdoc⟩, h => by
    obtain ⟨ih, hnil⟩ := hdoc.fill h.tail
    -- the next blocks are empty only if they were before
    have hmay : MayFollow b.rest (blocksText (fillBlocks (fun n => literals (n + 1)) bs)) :=
      hfollow.imp id hnil
    have hnot : blocksText (b :: bs) ≠ [] := by
      rw [blocksText_cons]
      simp [hne]
    rw [fillBlocks_cons]
    refine ⟨?_, fun h => absurd h hnot⟩
    cases hl : literals 0 with
    | none => exact ⟨hform, hne, hmay, ih⟩
    | some literal =>
      have ht : b.Takes literal := h 0 b literal rfl hl
      refine ⟨hform.write ht, ht.text_ne_nil, ?_, ih⟩
      rw [Option.map_some, Option.getD_some, b.write_rest literal]
      exact hmay

/-- **The pieces of a document with other values** are the pieces of the document with other
values. -/
theorem forall₂_isPiece_fill : ∀ {bs : List Block} {ps : List Piece}
    {literals : Nat → Option (List Char)}, List.Forall₂ Block.IsPiece bs ps → TakeAll literals bs →
      List.Forall₂ Block.IsPiece (fillBlocks literals bs) (fill literals ps)
  | _, _, _, .nil, _ => .nil
  | b :: bs, p :: ps, literals, .cons hp hps, h => by
    rw [fillBlocks_cons, fill_cons]
    refine .cons ?_ (forall₂_isPiece_fill hps h.tail)
    cases hl : literals 0 with
    | none => exact hp
    | some literal => exact hp.write (h 0 b literal rfl hl)

/-- The statement of a block with another value. -/
theorem reworded_write (literal : List Char) (b : Block) :
    Reworded b.statement? (b.write literal).statement? := by
  unfold Block.write
  split
  · next hs _ =>
    rw [hs]
    exact .entry _ _ _
  · exact .refl _

/-- The statements of the blocks are reworded one by one. -/
theorem forall₂_reworded_fillBlocks : ∀ (literals : Nat → Option (List Char)) (bs : List Block),
    List.Forall₂ Reworded (bs.map Block.statement?) ((fillBlocks literals bs).map Block.statement?)
  | _, [] => .nil
  | literals, b :: bs => by
    rw [fillBlocks_cons]
    refine .cons ?_ (forall₂_reworded_fillBlocks _ bs)
    cases literals 0 with
    | none => exact .refl _
    | some literal => exact reworded_write literal b

/-- The statement of a block in which a literal may have been written. -/
theorem statement?_getD_write (b : Block) (literal? : Option (List Char)) :
    ((literal?.map b.write).getD b).statement? = match b.statement? with
      | some (.entry path term) =>
        some (.entry path (((literal?.bind scalarOf?).map Term.leaf).getD term))
      | s => s := by
  cases literal? with
  | none => rcases hs : b.statement? with _ | _ | _ <;> simp [hs]
  | some literal =>
    rcases hs : b.statement? with _ | _ | _ <;> cases hv : scalarOf? literal <;>
      simp [Block.write, hs, hv]

/-- **The entry at a position** is that of before, with the scalar of the literal if one is
written. -/
theorem entryAt?_fillBlocks : ∀ (bs : List Block) (literals : Nat → Option (List Char))
    (current : List String) (n : Nat),
    entryAt? current ((fillBlocks literals bs).map Block.statement?) n
      = (entryAt? current (bs.map Block.statement?) n).map fun (path, term) =>
          (path, (((literals n).bind scalarOf?).map Term.leaf).getD term)
  | [], _, _, _ => rfl
  | b :: bs, literals, current, n => by
    have ih (current : List String) (n : Nat) :=
      entryAt?_fillBlocks bs (fun n => literals (n + 1)) current n
    rw [fillBlocks_cons, List.map_cons, List.map_cons]
    rw [statement?_getD_write]
    rcases b.statement? with _ | ⟨path, array⟩ | ⟨path, term⟩
    · cases n with
      | zero => rfl
      | succ n => exact ih current n
    · cases n with
      | zero => rfl
      | succ n => exact ih path n
    · cases n with
      | zero => rfl
      | succ n => exact ih current n

end TomlKeep
