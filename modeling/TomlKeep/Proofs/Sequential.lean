/-
# Patching one by one and all at once

`patchAll` carries out instructions one after the other, each on the text that the one before it
left.  The result is the same as if all of them were planned on the first text and every planned
span replaced at once, by the last literal for its target (`patchAll_simultaneous`).

The spans are replaced at once by `replaceSpans`, character by character: a character inside a span
is dropped, and a replacement is written where its span begins.  So the order of the edits plays no
part in it.
-/
import TomlKeep.Proofs.Cutting
import TomlKeep.Proofs.Targets

namespace TomlKeep

open Text

/-! ## 1. Replacing spans at once

The text is written out character by character, with the offset of each.  What becomes of a
character depends on its offset and on the set of spans: that is why the order of the edits cannot
matter.  Three facts are enough to write out an entry: text that no span touches is kept, text up to
the beginning of a span is kept with the replacement behind it, and text inside a span is dropped.
-/

/-- Whether the position is inside a span. -/
def covered (edits : List Edit) (position : Nat) : Bool :=
  edits.any fun e => decide (e.start ≤ position) && decide (position < e.stop)

/-- What is written at a position: the replacements of the spans that begin there. -/
def written (edits : List Edit) (position : Nat) : List Char :=
  (edits.filter fun e => e.start == position).flatMap Edit.replacement

/-- The rest of a text from a position on, with what is written behind its first character. -/
def replaceBehind (edits : List Edit) : Nat → List Char → List Char
  | _, [] => []
  | position, c :: rest =>
    (if covered edits position then [] else [c]) ++ written edits (position + c.utf8Size)
      ++ replaceBehind edits (position + c.utf8Size) rest

/-- **The text with all spans replaced at once.** -/
def replaceSpans (edits : List Edit) (text : List Char) : List Char :=
  written edits 0 ++ replaceBehind edits 0 text

example : replaceSpans [⟨1, 3, ['x'], ['b', 'c']⟩, ⟨0, 0, ['y'], []⟩] ['a', 'b', 'c', 'd']
    = ['y', 'a', 'x', 'd'] := by decide

/-- Spans with at least a byte between them. -/
def Edit.Apart (a b : Edit) : Prop := a.stop < b.start ∨ b.stop < a.start

/-- No span touches the range. -/
def Untouched (edits : List Edit) (start stop : Nat) : Prop :=
  ∀ e ∈ edits, e.stop ≤ start ∨ stop < e.start

/-- Where no span begins, nothing is written. -/
theorem written_eq_nil {edits : List Edit} {position : Nat}
    (h : ∀ e ∈ edits, e.start ≠ position) : written edits position = [] := by
  have : edits.filter (fun e => e.start == position) = [] := by
    simpa [List.filter_eq_nil_iff] using h
  simp [written, this]

/-- A character outside all spans is kept. -/
theorem replaceBehind_cons_kept {edits : List Edit} {n : Nat}
    (h : ∀ e ∈ edits, e.stop ≤ n ∨ n < e.start) (c : Char) (rest : List Char) :
    replaceBehind edits n (c :: rest)
      = c :: (written edits (n + c.utf8Size) ++ replaceBehind edits (n + c.utf8Size) rest) := by
  have hcov : covered edits n = false := by
    simp only [covered, List.any_eq_false, Bool.and_eq_true, decide_eq_true_eq]
    intro e he
    have := h e he
    omega
  simp [replaceBehind, hcov]

/-- Text that no span touches is kept, and nothing is written right behind it. -/
theorem replaceBehind_untouched {edits : List Edit} (ho : ∀ e ∈ edits, e.start ≤ e.stop)
    (rest : List Char) : ∀ {text : List Char} {n : Nat},
      Untouched edits n (n + byteLength text) →
        replaceBehind edits n (text ++ rest)
          = text ++ replaceBehind edits (n + byteLength text) rest
  | [], _, _ => by simp
  | c :: text, n, h => by
    have hc : 0 < c.utf8Size := c.utf8Size_pos
    rw [byteLength_cons, ← Nat.add_assoc] at h ⊢
    have hkeep : ∀ e ∈ edits, e.stop ≤ n ∨ n < e.start := by
      intro e he
      have := h e he
      omega
    -- no span begins right behind this character, for it would touch the text
    have hnone : written edits (n + c.utf8Size) = [] := by
      refine written_eq_nil fun e he hs => ?_
      have := h e he
      have := ho e he
      omega
    have hfree : Untouched edits (n + c.utf8Size) (n + c.utf8Size + byteLength text) := by
      intro e he
      have := h e he
      omega
    rw [List.cons_append, replaceBehind_cons_kept hkeep, hnone,
      replaceBehind_untouched ho rest hfree]
    rfl

/-- Text up to where a span begins. -/
theorem replaceBehind_upTo {edits : List Edit} (rest : List Char) :
    ∀ {text : List Char} {n : Nat}, text ≠ [] →
      (∀ e ∈ edits, e.start ≤ e.stop ∧ (e.stop ≤ n ∨ n + byteLength text ≤ e.start)) →
        replaceBehind edits n (text ++ rest)
          = text ++ written edits (n + byteLength text)
            ++ replaceBehind edits (n + byteLength text) rest
  | [], _, hne, _ => absurd rfl hne
  | c :: text, n, _, h => by
    have hc : 0 < c.utf8Size := c.utf8Size_pos
    rw [byteLength_cons, ← Nat.add_assoc] at h ⊢
    have hkeep : ∀ e ∈ edits, e.stop ≤ n ∨ n < e.start := by
      intro e he
      have := h e he
      omega
    rw [List.cons_append, replaceBehind_cons_kept hkeep]
    -- behind the last character the replacement is written, and nothing behind the others
    cases text with
    | nil => simp
    | cons d text =>
      have hd : 0 < d.utf8Size := d.utf8Size_pos
      have hnone : written edits (n + c.utf8Size) = [] := by
        refine written_eq_nil fun e he hs => ?_
        have := h e he
        simp only [byteLength_cons] at this
        omega
      have hout : ∀ e ∈ edits, e.start ≤ e.stop ∧ (e.stop ≤ n + c.utf8Size
          ∨ n + c.utf8Size + byteLength (d :: text) ≤ e.start) := by
        intro e he
        have := h e he
        omega
      rw [hnone, List.nil_append, replaceBehind_upTo rest (List.cons_ne_nil d text) hout]
      simp

/-- Text inside a span is dropped. -/
theorem replaceBehind_dropped {edits : List Edit} {e : Edit} (he : e ∈ edits) (rest : List Char) :
    ∀ {text : List Char} {n : Nat}, e.start ≤ n → n + byteLength text ≤ e.stop →
      (∀ b ∈ edits, b.start ≤ n ∨ n + byteLength text < b.start) →
        replaceBehind edits n (text ++ rest) = replaceBehind edits (n + byteLength text) rest
  | [], _, _, _, _ => by simp
  | c :: text, n, h1, h2, hw => by
    have hc : 0 < c.utf8Size := c.utf8Size_pos
    rw [byteLength_cons, ← Nat.add_assoc] at h2 hw ⊢
    have hcov : covered edits n = true := by
      simp only [covered, List.any_eq_true, Bool.and_eq_true, decide_eq_true_eq]
      exact ⟨e, he, h1, by omega⟩
    -- only one span begins where this one does, and that is behind us
    have hnone : written edits (n + c.utf8Size) = [] := by
      refine written_eq_nil fun b hb hs => ?_
      have := hw b hb
      omega
    have hw' : ∀ b ∈ edits, b.start ≤ n + c.utf8Size
        ∨ n + c.utf8Size + byteLength text < b.start := by
      intro b hb
      have := hw b hb
      omega
    have ih := replaceBehind_dropped he rest (by omega) h2 hw'
    simp [replaceBehind, hcov, hnone, ih]

/-! ## 2. Replacing the values of a document in pieces at once

Each entry is touched by one span at most, that of its value, and no span reaches from one entry
into another.  So the pieces can be written out one after the other, and all spans are carried along
although each piece sees one of them only (`Carries`).
-/

/-- The edit of the value of an entry that begins at an offset. -/
def Entry.edit (e : Entry) (before : Nat) (literal : List Char) : Edit where
  start := before + byteLength e.lead
  stop := before + byteLength e.lead + byteLength e.value
  replacement := literal
  expected := e.value

/-- The range of the edit is that of the value. -/
theorem Entry.edit_spec (e : Entry) (before : Nat) (literal : List Char) :
    (e.edit before literal).start = before + byteLength e.lead
      ∧ (e.edit before literal).stop = before + byteLength e.lead + byteLength e.value
      ∧ byteLength e.text = byteLength e.lead + byteLength e.value + byteLength e.rest := by
  refine ⟨rfl, rfl, ?_⟩
  rw [Entry.text, byteLength_append, byteLength_append]

/-- The only span that touches an entry replaces its value: the lead is kept up to the span, the
value is dropped, and the rest is untouched. -/
theorem replaceBehind_entry {edits : List Edit} {e : Entry} {n : Nat} {literal : List Char}
    (ho : ∀ b ∈ edits, b.start ≤ b.stop) (hlead : e.lead ≠ [])
    (hone : edits.filter (fun b => b.start == n + byteLength e.lead) = [e.edit n literal])
    (hothers : ∀ b ∈ edits, b = e.edit n literal ∨ b.stop ≤ n ∨ n + byteLength e.text < b.start)
    (rest : List Char) :
    replaceBehind edits n (e.text ++ rest)
      = ({ e with value := literal } : Entry).text
        ++ replaceBehind edits (n + byteLength e.text) rest := by
  obtain ⟨hstart, hstop, hlen⟩ := e.edit_spec n literal
  have hmem : e.edit n literal ∈ edits := by
    have : e.edit n literal ∈ edits.filter (fun b => b.start == n + byteLength e.lead) := by
      rw [hone]
      simp
    exact (List.mem_filter.mp this).1
  have hw : written edits (n + byteLength e.lead) = literal := by
    simp [written, hone, Entry.edit]
  -- the lead: any other span is over before it or begins behind the entry
  have hout : ∀ b ∈ edits, b.start ≤ b.stop
      ∧ (b.stop ≤ n ∨ n + byteLength e.lead ≤ b.start) := fun b hb =>
    ⟨ho b hb, by rcases hothers b hb with rfl | h <;> omega⟩
  -- the value: no other span begins in it
  have hinside : ∀ b ∈ edits, b.start ≤ n + byteLength e.lead
      ∨ n + byteLength e.lead + byteLength e.value < b.start := by
    intro b hb
    have := ho b hb
    rcases hothers b hb with rfl | h <;> omega
  -- the rest of the entry: the one span is over, and the others are elsewhere
  have hbehind : Untouched edits (n + byteLength e.lead + byteLength e.value)
      (n + byteLength e.lead + byteLength e.value + byteLength e.rest) := by
    intro b hb
    rcases hothers b hb with rfl | h <;> omega
  rw [hlen, ← Nat.add_assoc, ← Nat.add_assoc, Entry.text, Entry.text, List.append_assoc,
    List.append_assoc, replaceBehind_upTo _ hlead hout, hw,
    replaceBehind_dropped hmem _ (Nat.le_of_eq hstart) (Nat.le_of_eq hstop.symm) hinside,
    replaceBehind_untouched ho rest hbehind]
  simp

/-- What a list of edits does to a document in pieces: for each literal one edit, and no other. -/
structure Carries (edits : List Edit) (literals : Nat → Option (List Char)) (before : Nat)
    (ps : List Piece) : Prop where
  one : ∀ n e, ps[n]? = some (.entry e) → edits.filter (fun b =>
      b.start == before + byteLength (textOf (ps.take n)) + byteLength e.lead)
    = ((literals n).map (e.edit (before + byteLength (textOf (ps.take n))))).toList
  only : ∀ b ∈ edits, b.stop ≤ before ∨ ∃ n e literal, ps[n]? = some (.entry e)
    ∧ literals n = some literal ∧ b = e.edit (before + byteLength (textOf (ps.take n))) literal

/-- Filling goes from piece to piece. -/
theorem fill_cons (literals : Nat → Option (List Char)) (p : Piece) (ps : List Piece) :
    fill literals (p :: ps)
      = ((literals 0).map p.write).getD p :: fill (fun n => literals (n + 1)) ps := by
  simp [fill, List.mapIdx_cons]

/-- An entry of a document in pieces has a lead. -/
theorem Entry.Reads.lead_ne_nil {e : Entry} {behind : List Char} (h : e.Reads behind) :
    e.lead ≠ [] := by
  obtain ⟨line, ls, a, -, hk, -, hlead, -⟩ := h.opens
  obtain ⟨left, gap, hl, -⟩ := (classify_eq_assignment_iff.mp hk).1.lead
  rw [← hlead, hl]
  simp

/-- So has every entry: a lead holds an equals sign at least. -/
theorem Segmented.lead_ne_nil : ∀ {ps : List Piece} {n : Nat} {e : Entry}, Segmented ps →
    ps[n]? = some (.entry e) → e.lead ≠ []
  | [], _, _, _, hn => by simp at hn
  | p :: ps, 0, e, h, hn => by
    obtain rfl : p = .entry e := by simpa using hn
    exact Entry.Reads.lead_ne_nil h.reads
  | p :: ps, n + 1, e, h, hn => Segmented.lead_ne_nil h.2.2 (by simpa using hn)

theorem byteLength_pos {text : List Char} (h : text ≠ []) : 0 < byteLength text := by
  cases text with
  | nil => exact absurd rfl h
  | cons c rest =>
    have := c.utf8Size_pos
    rw [byteLength_cons]
    omega

theorem byteLength_take_succ (p : Piece) (ps : List Piece) (n : Nat) :
    byteLength (textOf ((p :: ps).take (n + 1)))
      = byteLength p.text + byteLength (textOf (ps.take n)) := by
  rw [List.take_succ_cons, textOf_cons, byteLength_append]

/-- Behind the first piece the edits are those of the other pieces.  All edits are still in the
list, but that of the first piece ends before the others begin, like those of the pieces in front
of it. -/
theorem Carries.tail {edits : List Edit} {literals : Nat → Option (List Char)} {before : Nat}
    {p : Piece} {ps : List Piece} (h : Carries edits literals before (p :: ps)) :
    Carries edits (fun n => literals (n + 1)) (before + byteLength p.text) ps := by
  constructor
  · intro n e he
    have := h.one (n + 1) e he
    rwa [byteLength_take_succ, ← Nat.add_assoc] at this
  · intro b hb
    rcases h.only b hb with hs | ⟨n, e, literal, hn, hl, rfl⟩
    · exact .inl (by omega)
    -- the edit of the first piece is over where the second begins
    · cases n with
      | zero =>
        obtain rfl : p = .entry e := by simpa using hn
        obtain ⟨-, hstop, hlen⟩ := e.edit_spec (before + byteLength (textOf [])) literal
        refine .inl ?_
        simp only [List.take_zero, textOf_nil, byteLength_nil, Piece.text] at hstop ⊢
        omega
      | succ n =>
        refine .inr ⟨n, e, literal, hn, hl, ?_⟩
        rw [byteLength_take_succ, Nat.add_assoc]

/-- An edit that touches the first piece is the edit of that piece. -/
theorem Carries.first {edits : List Edit} {literals : Nat → Option (List Char)} {before : Nat}
    {p : Piece} {ps : List Piece} (hseg : Segmented (p :: ps))
    (h : Carries edits literals before (p :: ps)) {b : Edit} (hb : b ∈ edits) :
    (∃ e literal, p = .entry e ∧ literals 0 = some literal ∧ b = e.edit before literal)
      ∨ b.stop ≤ before ∨ before + byteLength p.text < b.start := by
  rcases h.only b hb with hs | ⟨n, e, literal, hn, hl, rfl⟩
  · exact .inr (.inl hs)
  · cases n with
    | zero => exact .inl ⟨e, literal, by simpa using hn, hl, rfl⟩
    | succ n =>
      have hlead := byteLength_pos (hseg.2.2.lead_ne_nil (by simpa using hn))
      refine .inr (.inr ?_)
      rw [byteLength_take_succ, (e.edit_spec _ _).1]
      omega

/-- **Replacing the spans at once writes the literals into the entries.**  The induction is on
the pieces, with the offset of the first of them and the edits of all; what the spans do to one
piece is known, and behind it the edits carry the others. -/
theorem Carries.replaceBehind {edits : List Edit} (ho : ∀ b ∈ edits, b.start ≤ b.stop) :
    ∀ {ps : List Piece} {literals : Nat → Option (List Char)} {before : Nat}, Segmented ps →
      Carries edits literals before ps →
        replaceBehind edits before (textOf ps) = textOf (fill literals ps)
  | [], _, _, _, _ => rfl
  | p :: ps, literals, before, hseg, h => by
    have ih := Carries.replaceBehind ho hseg.2.2 h.tail
    rw [fill_cons, textOf_cons, textOf_cons, ← ih]
    -- fixed text and an entry without a literal are kept; any other is touched by its own span
    cases p with
    | fixed text =>
      have hfree : Untouched edits before (before + byteLength text) := fun b hb =>
        (h.first hseg hb).resolve_left (by simp)
      rw [Piece.text, replaceBehind_untouched ho _ hfree]
      cases literals 0 <;> rfl
    | entry e =>
      cases hl : literals 0 with
      | none =>
        have hfree : Untouched edits before (before + byteLength e.text) := fun b hb =>
          (h.first hseg hb).resolve_left (by simp [hl])
        rw [Piece.text, replaceBehind_untouched ho _ hfree]
        rfl
      | some literal =>
        have hone := h.one 0 e rfl
        simp only [List.take_zero, textOf_nil, byteLength_nil, Nat.add_zero, hl, Option.map_some,
          Option.toList_some] at hone
        have hothers : ∀ b ∈ edits, b = e.edit before literal ∨ b.stop ≤ before
            ∨ before + byteLength e.text < b.start := by
          intro b hb
          rcases h.first hseg hb with ⟨e', literal', he, hl', rfl⟩ | hfree
          · obtain rfl : e = e' := by simpa using he
            obtain rfl : literal = literal' := by simpa [hl] using hl'
            exact .inl rfl
          · exact .inr hfree
        have hlead := hseg.lead_ne_nil (n := 0) rfl
        rw [Piece.text, replaceBehind_entry ho hlead hone hothers]
        rfl

/-! ## 3. The instructions that count

Of several instructions for one target the last one counts, since each is carried out on what the
one before has left.  Two targets never share a position, so for each position the instructions for
it are those for one target.
-/

/-- The instructions that no later one with the same target overrides. -/
def latest : List Instruction → List Instruction
  | [] => []
  | i :: rest =>
    if rest.any (fun j => j.address == i.address) then latest rest else i :: latest rest

/-- **The last literal for a position** is that of the one instruction for it that counts. -/
theorem filter_latest (heads : List Head) (n : Nat) : ∀ is : List Instruction,
    ((latest is).filter fun i => targetIndex? i heads == some n).map Instruction.literal
      = (lastFor? heads is n).toList
  | [] => rfl
  | i :: rest => by
    have ih := filter_latest heads n rest
    have hany := isSome_lastFor? heads n rest
    -- the instruction is for this position or for another one
    by_cases hi : targetIndex? i heads = some n
    -- a later instruction has the same target, and then one is for the same position as well
    · by_cases hsame : rest.any (fun j => j.address == i.address) = true
      · obtain ⟨j, hj, hji⟩ := List.any_eq_true.mp hsame
        have hjn : targetIndex? j heads = some n := by
          rw [targetIndex?_address (by simpa using hji), hi]
        have hs : (lastFor? heads rest n).isSome = true := by
          rw [hany, List.any_eq_true]
          exact ⟨j, hj, by simp [hjn]⟩
        obtain ⟨literal, hl⟩ := Option.isSome_iff_exists.mp hs
        rw [latest, if_pos hsame, ih, lastFor?, hl]
        rfl
      · have hs : lastFor? heads rest n = none := by
          rw [← Option.not_isSome_iff_eq_none, hany]
          intro h
          obtain ⟨j, hj, hjn⟩ := List.any_eq_true.mp h
          -- a later instruction for this position would have the same target
          refine hsame (List.any_eq_true.mpr ⟨j, hj, ?_⟩)
          simpa using targetIndex?_injective (by simpa using hjn) hi
        rw [hs] at ih
        rw [latest, if_neg hsame, List.filter_cons, if_pos (by simpa using hi), List.map_cons, ih,
          lastFor?, hs, if_pos hi]
        rfl
    · have hlast : lastFor? heads (i :: rest) n = lastFor? heads rest n := by
        simp [lastFor?, hi]
      rw [hlast, ← ih, latest]
      split
      · rfl
      · rw [List.filter_cons, if_neg (by simpa using hi)]

/-! ## 4. One by one is all at once

Both sides are brought to the same form, the document with the last literal for each position.  One
by one this is `patchAll_textOf`; at once it is `replaceSpans_latest`, for which it has to be seen
that the planned edits are the edits of their entries and lie apart.
-/

/-- Whether the edit replaces a value in its line: no array and no inline table, and behind a
multi-line string stands only a gap or a comment. -/
def Edit.isInline (e : Edit) (text : List Char) : Bool :=
  match splitAt? e.stop text with
  | none => false
  | some (_, behind) => TomlKeep.isInline e.expected behind

/-- The plan for an instruction whose position holds an entry. -/
theorem planEdit?_entry {ps : List Piece} (h : Segmented ps) {i : Instruction} {n : Nat} {e : Entry}
    (hp : pieceFor? ps i = some (n, .entry e)) :
    planEdit? (textOf ps) i = some (e.edit (byteLength (textOf (ps.take n))) i.literal) := by
  rw [planEdit?_textOf h, hp]
  rfl

/-- A planned edit is that of an entry, for in fixed text no value is found. -/
theorem planEdit?_eq_some {ps : List Piece} (h : Segmented ps) {i : Instruction} {b : Edit}
    (hb : planEdit? (textOf ps) i = some b) : ∃ n e, pieceFor? ps i = some (n, .entry e)
      ∧ b = e.edit (byteLength (textOf (ps.take n))) i.literal := by
  rw [planEdit?_textOf h] at hb
  obtain ⟨⟨n, p⟩, hp, hb⟩ := Option.bind_eq_some_iff.mp hb
  cases p with
  | fixed text => simp [Piece.edit?] at hb
  | entry e => exact ⟨n, e, hp, (Option.some.inj hb).symm⟩

/-- Whether an edit replaces a value in its line is told by the value and what stands behind it. -/
theorem Entry.isInline_edit (e : Entry) (before behind literal : List Char) :
    (e.edit (byteLength before) literal).isInline (before ++ (e.text ++ behind))
      = TomlKeep.isInline e.value (e.rest ++ behind) := by
  have hsplit : splitAt? (e.edit (byteLength before) literal).stop (before ++ (e.text ++ behind))
      = some (before ++ e.lead ++ e.value, e.rest ++ behind) := by
    have := splitAt?_byteLength (before ++ e.lead ++ e.value) (e.rest ++ behind)
    simpa [Entry.text, Entry.edit, Nat.add_assoc] using this
  rw [Edit.isInline, hsplit]
  rfl

/-- An edit that replaces a value in its line is planned for a place for a literal.  So what is
asked of the edits, which can be checked, gives what is asked of the pieces. -/
theorem fillable_of_isInline {ps : List Piece} (h : Segmented ps) {i : Instruction}
    (hi : ∀ b, planEdit? (textOf ps) i = some b → b.isInline (textOf ps) = true) :
    Fillable ps i := by
  intro n e hp
  have hin := hi _ (planEdit?_entry h hp)
  obtain ⟨post, hreads, htext, -⟩ := h.getElem? (pieceFor?_eq_some.mp hp).2
  have hinline := e.isInline_edit (textOf (ps.take n)) (textOf post) i.literal
  rw [Piece.text] at htext
  rw [← htext] at hinline
  exact Entry.Reads.fits hreads (hinline.symm.trans hin)

/-- A piece that stands before another one ends where that one begins, or before. -/
theorem byteLength_take_le {ps : List Piece} {n m : Nat} {p : Piece} (hn : ps[n]? = some p)
    (hlt : n < m) :
    byteLength (textOf (ps.take n)) + byteLength p.text ≤ byteLength (textOf (ps.take m)) := by
  have h1 : textOf (ps.take (n + 1)) = textOf (ps.take n) ++ p.text := by
    rw [List.take_add_one, hn, textOf_append]
    simp
  have h2 : ps.take m = ps.take (n + 1) ++ (ps.take m).drop (n + 1) := by
    have := List.take_append_drop (n + 1) (ps.take m)
    rwa [List.take_take, Nat.min_eq_left (by omega), eq_comm] at this
  rw [h2, textOf_append, byteLength_append, h1, byteLength_append]
  omega

/-- The spans of two entries are apart: the later one begins behind its lead, and a lead is not
empty. -/
theorem edit_apart {ps : List Piece} (h : Segmented ps) {n m : Nat} {e d : Entry}
    (hn : ps[n]? = some (.entry e)) (hm : ps[m]? = some (.entry d)) (hlt : n < m)
    (k l : List Char) :
    (e.edit (byteLength (textOf (ps.take n))) k).stop
      < (d.edit (byteLength (textOf (ps.take m))) l).start := by
  have hlead := byteLength_pos (h.lead_ne_nil hm)
  have hle := byteLength_take_le hn hlt
  rw [Piece.text] at hle
  have h1 := e.edit_spec (byteLength (textOf (ps.take n))) k
  have h2 := d.edit_spec (byteLength (textOf (ps.take m))) l
  omega

/-- **Spans that are planned for different targets are apart.**  Different targets have different
positions, and the entries at these do not overlap. -/
theorem apart_of_planEdit? {ps : List Piece} (h : Segmented ps) {i j : Instruction} {a b : Edit}
    (hij : i.address ≠ j.address) (ha : planEdit? (textOf ps) i = some a)
    (hb : planEdit? (textOf ps) j = some b) : a.Apart b := by
  obtain ⟨n, e, hi, rfl⟩ := planEdit?_eq_some h ha
  obtain ⟨m, d, hj, rfl⟩ := planEdit?_eq_some h hb
  obtain ⟨hin, he⟩ := pieceFor?_eq_some.mp hi
  obtain ⟨hjm, hd⟩ := pieceFor?_eq_some.mp hj
  have hne : n ≠ m := fun hnm => hij (targetIndex?_injective hin (hnm ▸ hjm))
  rcases Nat.lt_or_gt_of_ne hne with hlt | hgt
  · exact .inl (edit_apart h he hd hlt _ _)
  · exact .inr (edit_apart h hd he hgt _ _)

/-- The plans of the instructions that count carry the last literals.  For each entry the plans
are filtered by where they begin, and since the spans of other entries begin elsewhere, that is
the same as filtering the instructions by their position. -/
theorem carries_latest {ps : List Piece} (h : Segmented ps) (is : List Instruction) :
    Carries ((latest is).filterMap (planEdit? (textOf ps)))
      (lastFor? (ps.map Piece.head) is) 0 ps := by
  constructor
  · intro n e he
    rw [Nat.zero_add]
    -- the plan of an instruction begins at the value of this entry exactly if it is for this entry
    have hstep : ∀ i, ((planEdit? (textOf ps) i).filter fun b =>
        b.start == byteLength (textOf (ps.take n)) + byteLength e.lead)
        = if targetIndex? i (ps.map Piece.head) == some n then
            some (e.edit (byteLength (textOf (ps.take n))) i.literal) else none := by
      intro i
      by_cases hi : targetIndex? i (ps.map Piece.head) = some n
      · have hp : pieceFor? ps i = some (n, .entry e) := pieceFor?_eq_some.mpr ⟨hi, he⟩
        rw [planEdit?_entry h hp]
        simp [hi, Entry.edit]
      -- another entry lies before this one or behind it, and so does its value
      · have hother : ∀ b, planEdit? (textOf ps) i = some b →
            b.start ≠ byteLength (textOf (ps.take n)) + byteLength e.lead := by
          intro b hb
          obtain ⟨m, d, hp, rfl⟩ := planEdit?_eq_some h hb
          obtain ⟨hm, hd⟩ := pieceFor?_eq_some.mp hp
          have hne : m ≠ n := fun hmn => hi (hmn ▸ hm)
          have h1 := e.edit_spec (byteLength (textOf (ps.take n))) i.literal
          have h2 := d.edit_spec (byteLength (textOf (ps.take m))) i.literal
          rcases Nat.lt_or_gt_of_ne hne with hlt | hgt
          · have := edit_apart h hd he hlt i.literal i.literal
            omega
          · have := edit_apart h he hd hgt i.literal i.literal
            omega
        cases hb : planEdit? (textOf ps) i with
        | none => simp [hi]
        | some b => simp [hi, hother b hb]
    have hlatest := filter_latest (ps.map Piece.head) n is
    rw [List.filter_filterMap, funext hstep, ← List.filterMap_filter, Option.toList_map, ← hlatest,
      List.map_map]
    exact congrFun List.filterMap_eq_map _
  · intro b hb
    obtain ⟨i, hi, hib⟩ := List.mem_filterMap.mp hb
    obtain ⟨n, e, hp, rfl⟩ := planEdit?_eq_some h hib
    obtain ⟨hn, he⟩ := pieceFor?_eq_some.mp hp
    refine .inr ⟨n, e, i.literal, he, ?_, by rw [Nat.zero_add]⟩
    have hmem : i.literal ∈ (lastFor? (ps.map Piece.head) is n).toList := by
      rw [← filter_latest]
      exact List.mem_map_of_mem (List.mem_filter.mpr ⟨hi, by simpa using hn⟩)
    simpa using hmem

/-- **Replacing all planned spans at once** fills the document with the last literals.  No span
begins at the very first offset, since each stands behind a lead. -/
theorem replaceSpans_latest {ps : List Piece} (h : Segmented ps) (is : List Instruction) :
    replaceSpans ((latest is).filterMap (planEdit? (textOf ps))) (textOf ps)
      = textOf (fill (lastFor? (ps.map Piece.head) is) ps) := by
  have hspan : ∀ b ∈ (latest is).filterMap (planEdit? (textOf ps)), b.start ≤ b.stop
      ∧ b.start ≠ 0 := by
    intro b hb
    obtain ⟨i, -, hib⟩ := List.mem_filterMap.mp hb
    obtain ⟨n, e, hp, rfl⟩ := planEdit?_eq_some h hib
    have hlead := byteLength_pos (h.lead_ne_nil (pieceFor?_eq_some.mp hp).2)
    have hspec := e.edit_spec (byteLength (textOf (ps.take n))) i.literal
    omega
  rw [replaceSpans, written_eq_nil fun b hb => (hspan b hb).2, List.nil_append]
  exact (carries_latest h is).replaceBehind (fun b hb => (hspan b hb).1) h

/-- The last literal for a position, where no two instructions have one target. -/
theorem lastFor?_eq_some {heads : List Head} {n : Nat} {literal : List Char} :
    ∀ {is : List Instruction}, is.Pairwise (fun i j => i.address ≠ j.address) →
      (lastFor? heads is n = some literal
        ↔ ∃ i ∈ is, targetIndex? i heads = some n ∧ i.literal = literal)
  | [], _ => by simp [lastFor?]
  | i :: rest, h => by
    obtain ⟨hi, hrest⟩ := List.pairwise_cons.mp h
    have ih : lastFor? heads rest n = some literal
        ↔ ∃ i ∈ rest, targetIndex? i heads = some n ∧ i.literal = literal := lastFor?_eq_some hrest
    by_cases hin : targetIndex? i heads = some n
    · have hnone : lastFor? heads rest n = none := by
        rw [← Option.not_isSome_iff_eq_none, isSome_lastFor?]
        intro hany
        obtain ⟨j, hj, hjn⟩ := List.any_eq_true.mp hany
        exact hi j hj (targetIndex?_injective hin (by simpa using hjn))
      -- a later instruction for the position would have the same target
      have hother : ¬ ∃ j ∈ rest, targetIndex? j heads = some n ∧ j.literal = literal := by
        rintro ⟨j, hj, hjn, -⟩
        exact hi j hj (targetIndex?_injective hin hjn)
      simp [lastFor?, hin, hnone, hother]
    · simp [lastFor?, hin, ih]

/-- Where no two instructions have one target, their order plays no part. -/
theorem lastFor?_perm {heads : List Head} {is js : List Instruction} (hp : js.Perm is)
    (h : is.Pairwise fun i j => i.address ≠ j.address) : lastFor? heads js = lastFor? heads is := by
  have h' : js.Pairwise fun i j => i.address ≠ j.address :=
    hp.symm.pairwise h fun hij => hij.symm
  funext n
  refine Option.ext fun literal => ?_
  rw [lastFor?_eq_some h, lastFor?_eq_some h']
  simp [hp.mem_iff]

/-- **Patching one by one is replacing all at once.**  The instructions carry literals of plain
scalars, and each value that is found in the text is replaced in its line.  Then exactly the
instructions that are planned on the text are carried out; spans that are planned for different
targets are apart; the result is the text with every planned span replaced by the last literal for
its target; and the order of instructions for different targets plays no part. -/
theorem patchAll_simultaneous (text : List Char) (is : List Instruction)
    (hl : ∀ i ∈ is, ∃ value : Value, value.isPlain = true ∧ value.literal? = some i.literal)
    (hin : ∀ i ∈ is, (planEdit? text i).all (Edit.isInline · text) = true) :
    (patchAll text is).applied = is.filter (fun i => (planEdit? text i).isSome)
      ∧ (patchAll text is).missed = is.filter (fun i => (planEdit? text i).isNone)
      ∧ (∀ i j a b, i.address ≠ j.address → planEdit? text i = some a → planEdit? text j = some b →
        a.Apart b)
      ∧ (patchAll text is).text = replaceSpans ((latest is).filterMap (planEdit? text)) text
      ∧ ∀ js : List Instruction, js.Perm is → is.Pairwise (fun i j => i.address ≠ j.address) →
        (patchAll text js).text = (patchAll text is).text
          ∧ (patchAll text js).applied.Perm (patchAll text is).applied
          ∧ (patchAll text js).missed.Perm (patchAll text is).missed := by
  -- any text falls into pieces, and then the positions tell everything
  obtain ⟨ps, rfl, hseg⟩ := exists_segmented text
  have hlit : ∀ i ∈ is, IsLiteral i.literal := by
    intro i hi
    obtain ⟨value, hp, hv⟩ := hl i hi
    exact isLiteral_of_literal? hp hv
  have hfill : ∀ i ∈ is, Fillable ps i := fun i hi => fillable_of_isInline hseg fun b hb => by
    have := hin i hi
    rw [hb] at this
    exact this
  have hpatch := patchAll_textOf hseg hlit hfill
  have hhits : hits ps = fun i => (planEdit? (textOf ps) i).isSome :=
    funext fun i => (isSome_planEdit? hseg i).symm
  refine ⟨?_, ?_, fun i j a b => apart_of_planEdit? hseg, ?_, fun js hperm hdistinct => ?_⟩
  · rw [hpatch, hhits]
  · rw [hpatch, hhits]
    simp
  · rw [hpatch, replaceSpans_latest hseg]
  · have hpatch' := patchAll_textOf hseg (fun i hi => hlit i (hperm.mem_iff.mp hi))
      (fun i hi => hfill i (hperm.mem_iff.mp hi))
    rw [hpatch, hpatch', lastFor?_perm hperm hdistinct]
    exact ⟨rfl, hperm.filter _, hperm.filter _⟩

/-- The later of two literals for one key counts, and a string of two lines becomes one. -/
theorem patchAll_repeated_target :
    (patchAll "a = 1\n[s]\nb = \"\"\"x\ny\"\"\" # c\n".toList
      [⟨.root, "a", ['7']⟩, ⟨⟨["s"]⟩, "b", ['8']⟩, ⟨.root, "a", ['9']⟩]).text
      = "a = 9\n[s]\nb = 8 # c\n".toList := by
  have hl : ∀ i ∈ [Instruction.mk .root "a" ['7'], ⟨⟨["s"]⟩, "b", ['8']⟩, ⟨.root, "a", ['9']⟩],
      ∃ value : Value, value.isPlain = true ∧ value.literal? = some i.literal := by
    simp only [List.forall_mem_cons]
    exact ⟨⟨.integer 7, rfl, by decide +kernel⟩, ⟨.integer 8, rfl, by decide +kernel⟩,
      ⟨.integer 9, rfl, by decide +kernel⟩, by simp⟩
  have h := patchAll_simultaneous "a = 1\n[s]\nb = \"\"\"x\ny\"\"\" # c\n".toList _ hl
    (by decide +kernel)
  rw [h.2.2.2.1]
  decide +kernel

end TomlKeep
