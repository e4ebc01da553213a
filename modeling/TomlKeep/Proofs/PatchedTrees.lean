/-
# The tree of a patched document

Instructions for scalars of the tree of a document are carried out on its text.  What is read
then is the tree amended (`exists_patched`): it is as before, but that scalars are replaced by
those that instructions for their paths bring, and every instruction has brought one.

A line that the search finds for an instruction is the entry of the path of the instruction
(`Patchable.exists_found`), if no line is mistaken for another one (`findsAsRead`).  Its value is
a scalar and can be replaced in its line (`Patchable.isInline`).  The blocks with the literals
written into them are the document that is read then.
-/
import TomlKeep.Proofs.Amending
import TomlKeep.Proofs.FilledBlocks

namespace TomlKeep

open Text Toml

/-! ## 1. Reading a document of blocks

The tree of a document is what its statements build, so it can be talked about without its text.
Where a statement comes from is kept with it: the entry at a position is the statement of the block
at that position.
-/

/-- Blocks without a statement are left out. -/
theorem filterMap_statements (bs : List Block) :
    (bs.map Block.statement?).filterMap id = bs.filterMap Block.statement? := by
  rw [List.filterMap_map]
  rfl

/-- **What a document of blocks says** is what its statements say. -/
theorem readStrict_of_blocks {text : List Char} {bs : List Block} (hdoc : IsDocument bs)
    (htext : withoutMark text = blocksText bs) {tree : Value} : readStrict text = .ok tree ↔
      ∃ nodes, enter? [] (bs.filterMap Block.statement?) [] = some nodes
        ∧ tree = .table (nodeEntries nodes) := by
  have hlength := length_le_blocksText hdoc
  have hlines : readStatements? text = some (bs.filterMap Block.statement?) := by
    have hread : readStatements? text
        = readLines? ((withoutMark text).length + 1) (withoutMark text) := rfl
    rw [hread, htext]
    exact readLines?_blocksText hdoc (by omega)
  rw [readStrict, Toml.read?, hlines]
  cases he : enter? [] (bs.filterMap Block.statement?) [] with
  | none => simp [he]
  | some nodes =>
    simp only [he, Option.map_some, Except.ok.injEq]
    constructor
    · rintro rfl
      exact ⟨nodes, rfl, rfl⟩
    · rintro ⟨other, hother, rfl⟩
      rw [Option.some.inj hother]

/-- The statements of a document have leaves that can be read. -/
theorem leaves_of_blocks {bs : List Block} (hdoc : IsDocument bs) :
    ∀ s ∈ bs.filterMap Block.statement?, s.Leaves Value.IsRead := by
  have hlines : readLines? (bs.length + 1) (blocksText bs) = some (bs.filterMap Block.statement?) :=
    readLines?_blocksText hdoc (Nat.lt_succ_self _)
  exact leaves_of_readLines? hlines

/-- All blocks of a document are formed. -/
theorem IsDocument.formed : ∀ {bs : List Block}, IsDocument bs → ∀ b ∈ bs, b.Formed
  | [], _ => by simp
  | _ :: _, h => List.forall_mem_cons.mpr ⟨h.1, h.2.2.2.formed⟩

/-- The entry at a position is that of the block there. -/
theorem exists_block_of_entryAt? :
    ∀ {bs : List Block} {current path : List String} {n : Nat} {term : Term},
    entryAt? current (bs.map Block.statement?) n = some (path, term) →
      ∃ b own, bs[n]? = some b ∧ b.statement? = some (.entry own term)
  | [], _, _, _, _, h => by cases h
  | b :: bs, current, path, 0, term, h => by
    rw [List.map_cons] at h
    rcases hs : b.statement? with _ | ⟨own, array⟩ | ⟨own, term'⟩
    · rw [hs] at h
      cases h
    · rw [hs] at h
      cases h
    · rw [hs] at h
      obtain ⟨-, rfl⟩ := Prod.mk.inj (Option.some.inj h)
      exact ⟨b, own, rfl, hs⟩
  | b :: bs, current, path, n + 1, term, h => by
    have later {current : List String}
        (h : entryAt? current (bs.map Block.statement?) n = some (path, term)) :
        ∃ c own, bs[n]? = some c ∧ c.statement? = some (.entry own term) :=
      exists_block_of_entryAt? h
    rw [List.map_cons] at h
    rcases hs : b.statement? with _ | ⟨own, array⟩ | ⟨own, term'⟩
    · rw [hs] at h
      exact later h
    · rw [hs] at h
      exact later h
    · rw [hs] at h
      exact later h

/-- A value that stands for a scalar is neither an array nor an inline table. -/
theorem Stands.isBracketed_eq_false {value rest : List Char} {term : Term}
    (h : Stands value rest term) {v : Value} (hv : term.value? = some v) (hs : v.isScalar = true) :
    isBracketed value = false := by
  have htake := h.taken [] (mayFollow_nil rest)
  rw [List.append_nil, maxNesting, takeTerm?_succ] at htake
  obtain ⟨c, more, rfl⟩ := List.exists_cons_of_ne_nil h.ne_nil
  have hstart (d : Char) : startsIn (· == d) (c :: more ++ rest) = (c == d) := rfl
  rw [hstart, hstart] at htake
  rw [isBracketed, startsIn, Bool.or_eq_false_iff]
  -- a term that begins with a bracket or a brace stands for an array or a table
  split at htake
  · obtain ⟨⟨items, behind⟩, -, he⟩ := Option.map_eq_some_iff.mp htake
    obtain ⟨rfl, -⟩ := Prod.mk.inj he
    obtain ⟨values, -, rfl⟩ := Option.map_eq_some_iff.mp hv
    cases hs
  · next hsquare =>
    split at htake
    · obtain ⟨⟨entries, behind⟩, -, he⟩ := Option.map_eq_some_iff.mp htake
      obtain ⟨rfl, -⟩ := Prod.mk.inj he
      obtain ⟨nodes, -, rfl⟩ := Option.map_eq_some_iff.mp hv
      cases hs
    · next hbrace => exact ⟨by simpa using hsquare, by simpa using hbrace⟩

/-- A scalar is amended to a scalar. -/
theorem Shadow.exists_scalar {is : List Instruction} {path : List String} {u : Value}
    {mid : Option Value} (h : Shadow is path (some u) mid) (hs : u.isScalar = true) :
    ∃ v, mid = some v ∧ v.isScalar = true := by
  cases h with
  | value hr =>
    rcases hr with rfl | ⟨-, i, -, -, hw⟩
    · exact ⟨_, rfl, hs⟩
    · exact ⟨_, rfl, isScalar_of_scalarOf? hw⟩
  | table | array => cases hs

/-! ## 2. Documents and instructions for them

The two conditions on the text are those under which the scan and the grammar agree; the other two
are on the instructions.  From all of them it follows that what the search finds for an instruction
is what the instruction means, which is the only place where the search and the tree meet.
-/

/-- **Instructions for scalars of the tree of a document.**  The scan reads the document as the
grammar does, and the literals can be read. -/
structure Patchable (text : List Char) (tree : Value) (is : List Instruction) : Prop where
  read : readStrict text = .ok tree
  scans : scansAsRead text = true
  finds : findsAsRead text tree = true
  scalar : ∀ i ∈ is, ∃ v, tree.at? i.path = some v ∧ v.isScalar = true
  literal : ∀ i ∈ is, IsLiteral i.literal ∧ ∃ w, scalarOf? i.literal = some w

/-- **What is found for an instruction:** the entry of its path, and a block that takes its
literal. -/
structure Found (i : Instruction) (marked : Bool) (bs : List Block) (n : Nat) : Prop where
  behind : marked = true → n ≠ 0
  entry : ∃ term v, entryAt? [] (bs.map Block.statement?) n = some (i.path, term)
    ∧ term.value? = some v ∧ v.isScalar = true
  takes : ∃ b, bs[n]? = some b ∧ b.Takes i.literal

/-- The heads of the pieces are what the search sees of the blocks. -/
theorem BothSee.heads {marked : Bool} {bs : List Block} {ps : List Piece}
    (h : BothSee marked bs ps) :
    ps.map Piece.head = scannedHeads marked bs := by
  cases h with
  | plain hps => exact map_head_eq hps
  | mark => rfl
  | @marked b p bs ps hp hps =>
    rw [List.map_cons, map_head_eq hps, scannedHeads, if_pos rfl]
    congr 1
    rw [List.take_succ_cons, List.take_zero, blocksText_cons, blocksText_nil, List.append_nil, ← hp]
    rfl

/-- **The line that is found for an instruction is the entry of its path.**  The search takes the
line for the entry of some path, which is that of the instruction; since it is the path of a
scalar of the tree, the grammar reads the line as the entry of that path too (`findsAsRead`).
The entry has landed there in the tree, so its value is the scalar, and a block whose value is a
scalar takes a literal. -/
theorem Patchable.exists_found {text : List Char} {tree : Value} {is : List Instruction}
    (h : Patchable text tree is) : ∃ bs ps, IsDocument bs ∧ Segmented ps ∧ textOf ps = text
      ∧ withoutMark text = blocksText bs ∧ BothSee (startsIn (· == byteOrderMark) text) bs ps
      ∧ ∀ i ∈ is, ∀ n, targetIndex? i (ps.map Piece.head) = some n →
        Found i (startsIn (· == byteOrderMark) text) bs n := by
  obtain ⟨bs, ps, hbs, hdoc, hboth, htext, hseg, -⟩ := exists_bothSee h.read h.scans
  obtain ⟨bs', hbs', -, hblocks⟩ := exists_document h.read
  obtain rfl : bs = bs' := Option.some.inj (hbs.symm.trans hbs')
  refine ⟨bs, ps, hdoc, hseg, htext, hblocks.symm, hboth, ?_⟩
  intro i hi n hn
  have hanswers := answers_of_targetIndex? hn
  obtain ⟨u, hu, hscalar⟩ := h.scalar i hi
  obtain ⟨-, key, hkey, -⟩ := id hanswers
  have hlt : n < (ps.map Piece.head).length := (List.getElem?_eq_some_iff.mp hkey).1
  -- the position is taken for the entry of a scalar, so it is read as that entry
  have hfinds := h.finds
  simp only [findsAsRead, hbs, Option.all_some, ← hboth.heads, List.all_eq_true, List.mem_range]
    at hfinds
  have hread := hfinds n hlt
  simp only [scannedPath?_of_answers hanswers, Option.all_some, hu, Option.any_some, hscalar,
    Bool.not_true, Bool.false_or, Bool.and_eq_true, Bool.or_eq_true, Bool.not_eq_true', bne_iff_ne]
    at hread
  obtain ⟨hmark, hentry⟩ := hread
  rcases he : entryAt? [] (bs.map Block.statement?) n with _ | ⟨path, term⟩
  · rw [he] at hentry
    cases hentry
  rw [he] at hentry
  obtain rfl : path = i.path := by simpa using hentry
  -- the block of the entry, and what its value became in the tree
  obtain ⟨b, own, hb, hstatement⟩ := exists_block_of_entryAt? he
  obtain ⟨nodes, henter, rfl⟩ := (readStrict_of_blocks hdoc hblocks.symm).mp h.read
  have hmem := mem_entryPaths_of_entryAt? he
  rw [filterMap_statements] at hmem
  obtain ⟨v, hv, hlands⟩ := lands_enter? (leaves_of_blocks hdoc) sound_empty henter _ term hmem
  obtain rfl : u = v := hlands.at? hu hscalar
  refine ⟨fun hm => hmark.resolve_left (by simp [hm]), ⟨term, u, he, hv, hscalar⟩, b, hb, ?_⟩
  obtain ⟨hliteral, hread⟩ := h.literal i hi
  refine ⟨⟨own, term, hstatement⟩, ?_, hliteral, hread⟩
  have hform := hdoc.formed b (List.mem_of_getElem? hb)
  cases hform with
  | blank | header => cases hstatement
  | entry _ _ hstands =>
    obtain ⟨-, rfl⟩ := Statement.entry.inj (Option.some.inj hstatement)
    exact hstands.isBracketed_eq_false hv hscalar

/-! ## 3. Writing the literals

Blocks and pieces are two views of one document, save for the line of a byte order mark, which no
instruction finds.  Literals are written into both alike, so the two views stay together.
-/

/-- The piece of the block at a position. -/
theorem exists_isPiece : ∀ {bs : List Block} {ps : List Piece} {n : Nat} {b : Block},
    List.Forall₂ Block.IsPiece bs ps → bs[n]? = some b → ∃ p, ps[n]? = some p ∧ b.IsPiece p
  | [], _, _, _, _, hb => by cases hb
  | _ :: _, _ :: _, 0, _, .cons hp _, hb => by
    obtain rfl := Option.some.inj hb
    exact ⟨_, rfl, hp⟩
  | _ :: bs, _ :: ps, n + 1, b, .cons _ hps, hb => by
    obtain ⟨p, hp, hpiece⟩ : ∃ p, ps[n]? = some p ∧ b.IsPiece p := exists_isPiece hps hb
    exact ⟨p, hp, hpiece⟩

/-- The piece of the block at a position, behind the mark if there is one. -/
theorem BothSee.exists_isPiece {marked : Bool} {bs : List Block} {ps : List Piece}
    (h : BothSee marked bs ps) {n : Nat} (hn : marked = true → n ≠ 0) {b : Block}
    (hb : bs[n]? = some b) :
    ∃ p, ps[n]? = some p ∧ b.IsPiece p := by
  cases h with
  | plain hps => exact TomlKeep.exists_isPiece hps hb
  | mark => cases hb
  | @marked _ _ bs ps _ hps =>
    obtain ⟨m, rfl⟩ := Nat.exists_eq_succ_of_ne_zero (hn rfl)
    obtain ⟨p, hp, hpiece⟩ : ∃ p, ps[m]? = some p ∧ b.IsPiece p := TomlKeep.exists_isPiece hps hb
    exact ⟨p, hp, hpiece⟩

/-- **The same two views of the document with other values,** if nothing is written into the line
of the mark.  The block there may be seen as another piece, of which it is not known what writing
does. -/
theorem BothSee.fill {marked : Bool} {bs : List Block} {ps : List Piece} (h : BothSee marked bs ps)
    {literals : Nat → Option (List Char)} (ht : TakeAll literals bs)
    (hm : marked = true → literals 0 = none) :
    BothSee marked (fillBlocks literals bs) (TomlKeep.fill literals ps) := by
  cases h with
  | plain hps => exact .plain (forall₂_isPiece_fill hps ht)
  | mark =>
    rw [fill_cons, hm rfl]
    exact .mark
  | marked hp hps =>
    rw [fillBlocks_cons, fill_cons, hm rfl]
    exact .marked hp (forall₂_isPiece_fill hps ht.tail)

/-- Texts that begin alike begin in the same kind of character. -/
theorem startsIn_eq_of_head?_eq {p : Char → Bool} {a b : List Char} (h : a.head? = b.head?) :
    startsIn p a = startsIn p b := by
  cases a with
  | nil =>
    cases b with
    | nil => rfl
    | cons => cases h
  | cons c a =>
    cases b with
    | nil => cases h
    | cons d b =>
      obtain rfl := Option.some.inj h
      rfl

/-- A literal is never written where the text begins. -/
theorem head?_blocksText_fill {bs : List Block} {literals : Nat → Option (List Char)}
    (hdoc : IsDocument bs) (ht : TakeAll literals bs) :
    (blocksText (fillBlocks literals bs)).head? = (blocksText bs).head? := by
  cases bs with
  | nil => rfl
  | cons b bs =>
    obtain ⟨hform, hne, -, -⟩ := hdoc
    rw [fillBlocks_cons, blocksText_cons, blocksText_cons, List.head?_append_of_ne_nil _ hne]
    cases hl : literals 0 with
    | none => exact List.head?_append_of_ne_nil _ hne
    | some literal =>
      have htake : b.Takes literal := ht 0 b literal rfl hl
      obtain ⟨path, term, value, hs, -, hw⟩ := htake.write_eq
      have hlead : b.lead ≠ [] := by
        cases hform with
        | blank | header => cases hs
        | entry hlead =>
          obtain ⟨left, gap, he, -⟩ := hlead.toLineLead.isLead
          simp [he]
      simp only [Option.map_some, Option.getD_some, hw, Block.text, List.append_assoc]
      rw [List.head?_append_of_ne_nil _ hlead, List.head?_append_of_ne_nil _ hlead]

/-- A piece is the last one, or more lines may follow it. -/
theorem Segmented.exists_behind : ∀ {ps : List Piece} {n : Nat} {p : Piece}, Segmented ps →
    ps[n]? = some p → ∃ post, textOf ps = textOf (ps.take n) ++ (p.text ++ textOf post)
      ∧ (textOf post = [] ∨ p.Followed)
  | [], _, _, _, hn => by cases hn
  | q :: ps, 0, p, h, hn => by
    obtain rfl := Option.some.inj hn
    refine ⟨ps, rfl, h.2.1.imp ?_ id⟩
    rintro rfl
    rfl
  | q :: ps, n + 1, p, h, hn => by
    obtain ⟨post, htext, hpost⟩ : ∃ post, textOf ps = textOf (ps.take n) ++ (p.text ++ textOf post)
        ∧ (textOf post = [] ∨ p.Followed) := h.2.2.exists_behind hn
    exact ⟨post, by simp [htext], hpost⟩

/-- **The value of an entry can be replaced in its line** if it stands in front of the rest of a
line. -/
theorem isInline_edit {ps : List Piece} (h : Segmented ps) {n : Nat} {e : Entry}
    (hn : ps[n]? = some (.entry e)) (hr : LineRest e.rest) (hv : isBracketed e.value = false)
    (literal : List Char) :
    (e.edit (byteLength (textOf (ps.take n))) literal).isInline (textOf ps) = true := by
  obtain ⟨post, htext, hpost⟩ := h.exists_behind hn
  rw [htext, Piece.text, e.isInline_edit]
  exact hr.isInline hpost.symm hv

/-- The piece that is found for an instruction. -/
theorem Found.exists_entry {i : Instruction} {marked : Bool} {bs : List Block} {n : Nat}
    (h : Found i marked bs n) {ps : List Piece} (hdoc : IsDocument bs)
    (hboth : BothSee marked bs ps) :
    ∃ e, ps[n]? = some (.entry e) ∧ LineRest e.rest ∧ isBracketed e.value = false := by
  obtain ⟨b, hb, ht⟩ := h.takes
  obtain ⟨p, hp, hpiece⟩ := hboth.exists_isPiece h.behind hb
  obtain ⟨e, rfl, hr, hv⟩ := hpiece.exists_entry (hdoc.formed b (List.mem_of_getElem? hb)) ht
  exact ⟨e, hp, hr, hv⟩

/-- **The text with the literals in it** is that of the blocks with the literals in them.  The
mark stays, and none appears, because the text begins as before. -/
theorem withoutMark_fill {bs : List Block} {ps : List Piece} {literals : Nat → Option (List Char)}
    (hdoc : IsDocument bs) (hboth : BothSee (startsIn (· == byteOrderMark) (textOf ps)) bs ps)
    (ht : TakeAll literals bs)
    (hm : startsIn (· == byteOrderMark) (textOf ps) = true → literals 0 = none) :
    withoutMark (textOf (TomlKeep.fill literals ps)) = blocksText (fillBlocks literals bs) := by
  have hfill := (hboth.fill ht hm).textOf
  have htext := hboth.textOf
  have hhead := head?_blocksText_fill hdoc ht
  cases hmark : startsIn (· == byteOrderMark) (textOf ps) with
  | true =>
    rw [hmark, if_pos rfl] at hfill
    rw [hfill]
    rfl
  | false =>
    rw [hmark, if_neg Bool.false_ne_true] at hfill htext
    rw [htext, startsIn_eq_of_head?_eq hhead.symm] at hmark
    rw [hfill, withoutMark, hmark, if_neg Bool.false_ne_true]

/-! ## 4. Patching

All patches of a save are carried out, so the text is that of the filled pieces.  It is read as the
filled blocks, whose statements are those of before with scalars amended; the tree that they build
is the amended tree.
-/

namespace Patchable

variable {text : List Char} {tree : Value} {is : List Instruction}

/-- **What is planned for an instruction replaces a value in its line.** -/
theorem isInline (h : Patchable text tree is) : ∀ i ∈ is, ∀ b, planEdit? text i = some b →
    b.isInline text = true := by
  intro i hi b hb
  obtain ⟨bs, ps, hdoc, hseg, rfl, -, hboth, hfound⟩ := h.exists_found
  obtain ⟨n, e, hp, rfl⟩ := planEdit?_eq_some hseg hb
  obtain ⟨hn, he⟩ := pieceFor?_eq_some.mp hp
  obtain ⟨d, hd, hr, hv⟩ := (hfound i hi n hn).exists_entry hdoc hboth
  obtain rfl : d = e := by simpa using hd.symm.trans he
  -- the entry stands in front of the rest of a line, so its edit is within the line
  exact isInline_edit hseg he hr hv i.literal

/-- The statements with other values are the same, amended.  A position for which there is a
literal is that of an instruction, and its entry has the path of that instruction. -/
theorem statementsAlike (h : Patchable text tree is) {marked : Bool} {bs : List Block}
    {heads : List Head}
    (hfound : ∀ i ∈ is, ∀ n, targetIndex? i heads = some n → Found i marked bs n) :
    StatementsAlike (Amends is) [] (bs.filterMap Block.statement?)
      ((fillBlocks (lastFor? heads is) bs).filterMap Block.statement?) := by
  rw [← filterMap_statements, ← filterMap_statements]
  refine statementsAlike_of_reworded (forall₂_reworded_fillBlocks _ bs) ?_
  intro n path a b ha hb v hv
  rw [entryAt?_fillBlocks, ha] at hb
  obtain ⟨-, rfl⟩ := Prod.mk.inj (Option.some.inj hb)
  cases hl : lastFor? heads is n with
  | none => exact ⟨v, hv, .inl rfl⟩
  | some literal =>
    obtain ⟨i, hi, hn, rfl⟩ := mem_of_lastFor? hl
    obtain ⟨term, u, hterm, hu, hs⟩ := (hfound i hi n hn).entry
    obtain ⟨rfl, rfl⟩ := Prod.mk.inj (Option.some.inj (ha.symm.trans hterm))
    obtain rfl : v = u := Option.some.inj (hv.symm.trans hu)
    obtain ⟨-, w, hw⟩ := h.literal i hi
    refine ⟨w, ?_, .inr ⟨hs, i, hi, rfl, hw⟩⟩
    rw [Option.bind_some, hw]
    rfl

/-- **The tree of a patched document is the tree amended.**  Instructions of which none misses
put scalars in the place of scalars, and each of them has brought one.  Several instructions may
be for one path; the last of them is the one that is found in the tree. -/
theorem exists_patched (h : Patchable text tree is) (hmissed : (patchAll text is).missed = []) :
    ∃ mid, readStrict (patchAll text is).text = .ok mid
      ∧ (∀ path, Shadow is path (tree.at? path) (mid.at? path))
      ∧ ∀ i ∈ is, ∃ j ∈ is, j.path = i.path ∧ ∃ w, scalarOf? j.literal = some w
        ∧ mid.at? i.path = some w := by
  obtain ⟨bs, ps, hdoc, hseg, rfl, hblocks, hboth, hfound⟩ := h.exists_found
  have hfillable : ∀ i ∈ is, Fillable ps i :=
    fun i hi => fillable_of_isInline hseg (h.isInline i hi)
  rw [patchAll_textOf hseg (fun i hi => (h.literal i hi).1) hfillable] at hmissed ⊢
  -- the blocks with the literals in them are the document that is read
  have htake : TakeAll (lastFor? (ps.map Piece.head) is) bs := by
    intro n b literal hb hl
    obtain ⟨i, hi, hn, rfl⟩ := mem_of_lastFor? hl
    obtain ⟨c, hc, ht⟩ := (hfound i hi n hn).takes
    obtain rfl : b = c := Option.some.inj (hb.symm.trans hc)
    exact ht
  have hmark : startsIn (· == byteOrderMark) (textOf ps) = true →
      lastFor? (ps.map Piece.head) is 0 = none := by
    intro hm
    rw [← Option.not_isSome_iff_eq_none]
    intro hsome
    obtain ⟨literal, hl⟩ := Option.isSome_iff_exists.mp hsome
    obtain ⟨i, hi, hn, -⟩ := mem_of_lastFor? hl
    exact (hfound i hi 0 hn).behind hm rfl
  obtain ⟨hdoc', -⟩ := hdoc.fill htake
  obtain ⟨nodes, henter, rfl⟩ := (readStrict_of_blocks hdoc hblocks).mp h.read
  obtain ⟨nodes', henter', halike⟩ :=
    follows_enter? (h.statementsAlike hfound) [] [] nodes .nil henter
  have hshadow (path : List String) : Shadow is path ((Value.table (nodeEntries nodes)).at? path)
      ((Value.table (nodeEntries nodes')).at? path) := shadow_of_alike halike
  refine ⟨.table (nodeEntries nodes'), ?_, hshadow, ?_⟩
  · have hmark' := withoutMark_fill hdoc hboth htake hmark
    exact (readStrict_of_blocks hdoc' hmark').mpr ⟨nodes', henter', rfl⟩
  · intro i hi
    have hhit : hits ps i = true := by
      by_contra hno
      exact List.filter_eq_nil_iff.mp hmissed i hi (by simpa using hno)
    obtain ⟨n, e, hp⟩ := hits_eq_true.mp hhit
    obtain ⟨hn, -⟩ := pieceFor?_eq_some.mp hp
    -- the last literal for the position is that of an instruction for the same path
    have hsome : (lastFor? (ps.map Piece.head) is n).isSome = true := by
      rw [isSome_lastFor?, List.any_eq_true]
      exact ⟨i, hi, by simp [hn]⟩
    obtain ⟨literal, hl⟩ := Option.isSome_iff_exists.mp hsome
    obtain ⟨j, hj, hjn, rfl⟩ := mem_of_lastFor? hl
    have hpath : j.path = i.path := by
      obtain ⟨htarget, hkey⟩ := Prod.mk.inj (targetIndex?_injective hjn hn)
      rw [Instruction.path, Instruction.path, htarget, hkey]
    obtain ⟨-, w, hw⟩ := h.literal j hj
    obtain ⟨term, u, hterm, -, -⟩ := (hfound i hi n hn).entry
    have hentry :
        entryAt? [] ((fillBlocks (lastFor? (ps.map Piece.head) is) bs).map Block.statement?) n
        = some (i.path, .leaf w) := by
      rw [entryAt?_fillBlocks, hterm, hl, Option.bind_some, hw]
      rfl
    have hmem := mem_entryPaths_of_entryAt? hentry
    rw [filterMap_statements] at hmem
    obtain ⟨w', hw', hlands⟩ := lands_enter? (leaves_of_blocks hdoc') sound_empty henter' _ _ hmem
    obtain rfl : w = w' := Option.some.inj hw'
    obtain ⟨v, hv, hscalar⟩ : ∃ v, (Value.table (nodeEntries nodes')).at? i.path = some v
        ∧ v.isScalar = true := by
      obtain ⟨u, hu, hs⟩ := h.scalar i hi
      have := hshadow i.path
      rw [hu] at this
      exact this.exists_scalar hs
    exact ⟨j, hj, hpath, w, hw, by rw [hv, hlands.at? hv hscalar]⟩

end Patchable

end TomlKeep
