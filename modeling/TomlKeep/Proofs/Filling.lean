/-
# Replacing the values of a document in pieces

An instruction means the entry at its position, whatever the values of the document are, since the
search sees the heads only.  So the plan is the edit of the value of that entry
(`planEdit?_textOf`), carrying it out writes the literal into the entry (`patch?_textOf`), and the
heads are as before (`Segmented.write`).

If every entry that is written to is a place for a literal, the document is in pieces again
(`Segmented.write`).  So any number of instructions leave the last literal that was meant for each
entry (`patchAll_textOf`).
-/
import TomlKeep.Proofs.Pieces

namespace TomlKeep

open Text

/-! ## 1. Offsets behind a text

An entry is planned for where it stands in the document, and found by reading the document from
there.  So all offsets are counted on behind a text in front.
-/

/-- A cut behind one more character. -/
theorem splitAt?_cons (c : Char) (n : Nat) (text : List Char) :
    splitAt? (c.utf8Size + n) (c :: text)
      = (splitAt? n text).map fun (before, behind) => (c :: before, behind) := by
  have hc : 0 < c.utf8Size := c.utf8Size_pos
  obtain ⟨m, hm⟩ : ∃ m, c.utf8Size + n = m + 1 := ⟨c.utf8Size + n - 1, by omega⟩
  have hle : c.utf8Size ≤ m + 1 := by omega
  have hsub : m + 1 - c.utf8Size = n := by omega
  rw [hm, splitAt?, if_pos hle, hsub]

/-- A cut behind more text. -/
theorem splitAt?_append (front : List Char) (n : Nat) (text : List Char) :
    splitAt? (byteLength front + n) (front ++ text)
      = (splitAt? n text).map fun (before, behind) => (front ++ before, behind) := by
  induction front with
  | nil => simp
  | cons c front ih =>
    rw [byteLength_cons, Nat.add_assoc, List.cons_append, splitAt?_cons, ih, Option.map_map]
    rfl

/-- The value of an assignment is found from the assignment on. -/
theorem wholeValue?_append (front text : List Char) (start : Nat) (a : Assignment) :
    wholeValue? (front ++ text) (byteLength front + start) a = wholeValue? text start a := by
  unfold wholeValue?
  split
  · rfl
  · rw [splitAt?_append]
    cases splitAt? start text <;> rfl

/-- A span that is put together is found. -/
theorem span?_append (before inside behind : List Char) :
    span? (byteLength before) (byteLength before + byteLength inside) (before ++ inside ++ behind)
      = some ⟨before, inside, behind⟩ := by
  have hle : byteLength before ≤ byteLength before + byteLength inside := by omega
  have hsub : byteLength before + byteLength inside - byteLength before = byteLength inside := by
    omega
  rw [span?, if_pos hle, hsub, List.append_assoc, splitAt?_byteLength]
  simp [splitAt?_byteLength]

/-! ## 2. The plan for an instruction

A plan is made from the scan of the whole document, its offsets and the value at its place.  On a
document in pieces all of this is known: the position is that of the heads, the offset is the length
of the pieces in front, and the value is that of the entry.
-/

/-- The edit of the value of an entry; `before` is where the entry begins. -/
def Piece.edit? (before : Nat) (literal : List Char) : Piece → Option Edit
  | .fixed _ => none
  | .entry e => some {
      start := before + byteLength e.lead
      stop := before + byteLength e.lead + byteLength e.value
      replacement := literal
      expected := e.value }

/-- What is found at a piece that is read on its own. -/
theorem Piece.Reads.edit? {p : Piece} {behind : List Char} (h : p.Reads behind)
    (front literal : List Char) :
    (p.assignment?.bind fun a =>
        (wholeValue? (front ++ (p.text ++ behind)) (byteLength front + a.valueStart) a).map
          fun value => Edit.mk (byteLength front + a.valueStart)
            (byteLength front + a.valueStart + byteLength value) literal value)
      = p.edit? (byteLength front) literal := by
  simp only [wholeValue?_append]
  -- in fixed text an assignment may be seen, but no value is found for it
  cases p with
  | fixed text =>
    cases ha : Piece.assignment? (.fixed text) with
    | none => rfl
    | some a =>
      simp only [Piece.assignment?, Piece.text] at ha
      split at ha
      · simp at ha
      · next line ls hl =>
        split at ha
        · next hk =>
          obtain rfl := Option.some.inj ha
          simp [Piece.edit?, Piece.text, h.2 line ls _ hl hk]
        · simp at ha
  | entry e =>
    obtain ⟨line, ls, a, hl, hk, -, hlead, hv⟩ := Entry.Reads.opens h
    have ha : Piece.assignment? (.entry e) = some a := by
      simp [Piece.assignment?, Piece.text, hl, hk]
    have hs : a.valueStart = byteLength e.lead := by rw [Assignment.valueStart, hlead]
    rw [hs] at hv
    simp [ha, Piece.text, hs, hv, Piece.edit?]

/-- A document in pieces, cut at a piece. -/
theorem Segmented.getElem? : ∀ {ps : List Piece} {n : Nat} {p : Piece}, Segmented ps →
    ps[n]? = some p → ∃ post, p.Reads (textOf post)
      ∧ textOf ps = textOf (ps.take n) ++ (p.text ++ textOf post)
      ∧ ∀ other, textOf (ps.set n other) = textOf (ps.take n) ++ (other.text ++ textOf post)
  | [], _, _, _, hn => by simp at hn
  | q :: ps, 0, p, h, hn => by
    obtain rfl : q = p := by simpa using hn
    exact ⟨ps, h.reads, by simp, by simp⟩
  -- the pieces behind the position are the same, and one more stands in front
  | q :: ps, n + 1, p, h, hn => by
    obtain ⟨post, h1, h2, h3⟩ := Segmented.getElem? h.2.2 (by simpa using hn)
    exact ⟨post, h1, by simp [h2], fun other => by simp [h3]⟩

/-- What the position of an instruction holds. -/
def pieceFor? (ps : List Piece) (i : Instruction) : Option (Nat × Piece) :=
  (targetIndex? i (ps.map Piece.head)).bind fun n => ps[n]?.map fun p => (n, p)

/-- The position that an instruction means is a matter of the heads alone. -/
theorem pieceFor?_eq_some {ps : List Piece} {i : Instruction} {n : Nat} {p : Piece} :
    pieceFor? ps i = some (n, p)
      ↔ targetIndex? i (ps.map Piece.head) = some n ∧ ps[n]? = some p := by
  simp only [pieceFor?, Option.bind_eq_some_iff, Option.map_eq_some_iff, Prod.mk.injEq]
  constructor
  · rintro ⟨m, hm, q, hq, rfl, rfl⟩
    exact ⟨hm, hq⟩
  · rintro ⟨hn, hp⟩
    exact ⟨n, hn, p, hp, rfl, rfl⟩

/-- **The plan is the edit of the value at the position of the instruction.** -/
theorem planEdit?_textOf {ps : List Piece} (h : Segmented ps) (i : Instruction) :
    planEdit? (textOf ps) i = (pieceFor? ps i).bind fun (n, p) =>
      p.edit? (byteLength (textOf (ps.take n))) i.literal := by
  unfold planEdit? pieceFor?
  rw [findTarget?_textOf h]
  cases targetIndex? i (ps.map Piece.head) with
  | none => rfl
  | some n =>
    simp only [Option.bind_some, assignmentAt?]
    cases hn : ps[n]? with
    | none => rfl
    | some p =>
      obtain ⟨post, hreads, htext, -⟩ := h.getElem? hn
      have := hreads.edit? (textOf (ps.take n)) i.literal
      rw [← htext] at this
      simp only [Option.bind_some, Option.map_some, ← this, Nat.zero_add]
      cases p.assignment? <;> rfl

/-! ## 3. Writing a literal -/

/-- The piece with another value. -/
def Piece.write (literal : List Char) : Piece → Piece
  | .fixed text => .fixed text
  | .entry e => .entry { e with value := literal }

/-- Whether there is a value to replace. -/
def Piece.isEntry : Piece → Bool
  | .fixed _ => false
  | .entry _ => true

/-- Whether the position of the instruction holds a value. -/
def hits (ps : List Piece) (i : Instruction) : Bool :=
  (pieceFor? ps i).any fun (_, p) => p.isEntry

/-- An instruction is planned exactly if its position holds a value. -/
theorem isSome_planEdit? {ps : List Piece} (h : Segmented ps) (i : Instruction) :
    (planEdit? (textOf ps) i).isSome = hits ps i := by
  rw [planEdit?_textOf h, hits]
  rcases pieceFor? ps i with _ | ⟨n, p⟩
  · rfl
  · cases p <;> rfl

/-- **Carrying out an instruction writes its literal into the entry at its position.** -/
theorem patch?_textOf {ps : List Piece} (h : Segmented ps) (i : Instruction) :
    patch? (textOf ps) i = (pieceFor? ps i).bind fun (n, p) =>
      if p.isEntry then some (textOf (ps.set n (p.write i.literal))) else none := by
  unfold patch?
  rw [planEdit?_textOf h]
  rcases hp : pieceFor? ps i with _ | ⟨n, p⟩
  · rfl
  · cases p with
    | fixed text => rfl
    | entry e =>
      obtain ⟨post, -, htext, hset⟩ := h.getElem? (pieceFor?_eq_some.mp hp).2
      have hspan := span?_append (textOf (ps.take n) ++ e.lead) e.value (e.rest ++ textOf post)
      simp only [byteLength_append, List.append_assoc] at hspan
      simp only [Option.bind_some, Piece.edit?, Edit.apply, htext, hset, Piece.text, Entry.text,
        Piece.write, List.append_assoc, hspan]
      simp [Piece.isEntry]

/-- What the value of a one-line assignment is for the scan: nothing that stays open. -/
theorem ofAssignment_of_closed {a : Assignment}
    (ht : tripleQuote? (a.value ++ a.gap ++ a.comment) = none)
    (hb : startsIn (fun c => c == '[' || c == '{') (a.value ++ a.gap ++ a.comment) = false)
    (line : Line) (following : List Line) : Pending.ofAssignment a line following = .closed := by
  simp only [Pending.ofAssignment, ht, hb, Bool.false_eq_true, if_false]

/-- A line that leaves nothing open is read on its own. -/
theorem standBefore_line {text behind : List Char} {line : Line} (hl : lines text = [line])
    (hk : ∀ a, classify line.content = .assignment a →
      Pending.ofAssignment a line (lines behind) = .closed) : StandBefore text behind := by
  intro offset
  have htext : text = line.chars := by
    have := flatten_lines text
    rw [hl] at this
    simpa using this.symm
  rw [hl, htext]
  simp only [List.cons_append, List.nil_append, together, continued]
  cases hc : classify line.content with
  | header h => simp [scanLines, hc]
  | other => simp [scanLines, hc]
  | assignment a => simp [scanLines, hc, hk a hc]

/-- A text of one line. -/
theorem lines_line {content : List Char} {ending : LineEnd} (h : (Line.mk content ending).Proper) :
    lines (content ++ ending.chars) = [⟨content, ending⟩] := by
  have hp : ProperLines [⟨content, ending⟩] := ⟨h, by simp, trivial⟩
  simpa [Line.chars] using lines_flatten hp

/-- **A value of one line makes an entry of one line.** -/
theorem Entry.Fits.reads {e : Entry} (h : e.Fits) {value : List Char} (hv : OneLine value)
    (behind : List Char) : ({ e with value := value } : Entry).Reads behind := by
  obtain ⟨gap, comment, ending, hrest, hlead, htail, hfeed, hreturn⟩ := id h
  have hform := hv.formed hlead htail
  have hne : e.lead ≠ [] := by
    obtain ⟨left, gap, h, -⟩ := hlead
    simp [h]
  have hline : (Line.mk (e.lead ++ value ++ (gap ++ comment)) ending).Proper := by
    refine ⟨?_, fun hlf => ?_, fun _ => by simp [hne]⟩
    · have := hv.feed
      simp_all
    · cases hg : gap ++ comment with
      | nil =>
        rw [List.append_nil, List.getLast?_append_of_ne_nil _ hv.ne_nil]
        exact hv.ret
      | cons c rest =>
        rw [List.getLast?_append_of_ne_nil _ (by simp), ← hg]
        exact hreturn hlf
  have hlines : lines (e.lead ++ value ++ e.rest)
      = [⟨e.lead ++ value ++ (gap ++ comment), ending⟩] := by
    rw [← lines_line hline, hrest]
    simp
  have hk := classify_eq_assignment_iff.mpr ⟨hform, rfl⟩
  simp only [Assignment.chars, List.append_assoc] at hk
  have ht := hv.triple gap comment htail
  have hb := hv.startsIn_bracket (gap ++ comment)
  refine ⟨standBefore_line hlines fun a ha => ?_,
    ⟨_, _, ⟨e.key, e.lead, value, gap, comment⟩, hlines, ?_, rfl, rfl, ?_⟩, fun _ => h⟩
  · obtain rfl := LineKind.assignment.inj (ha.symm.trans (by simpa using hk))
    exact ofAssignment_of_closed ht (by simpa using hb) _ _
  · simpa using hk
  · simp [wholeValue?, hv.tripleQuote?]

/-! ## 4. Writing many literals

Instructions are carried out one after the other, each on the text that those before it have left.
Since writing a literal keeps the document in pieces with the same heads, every one of them finds
the position that it would have found in the first text.  What is left in the end is the last
literal for each position.
-/

/-- The head of an entry is its key. -/
theorem Entry.Reads.head {e : Entry} {behind : List Char} (h : e.Reads behind) :
    (Piece.entry e).head = .key e.key := by
  obtain ⟨line, ls, a, hl, hk, hkey, -⟩ := h.opens
  simp [Piece.head, Piece.text, hl, hk, LineKind.head, hkey]

/-- Whether every value that an instruction means may be replaced. -/
def Fillable (ps : List Piece) (i : Instruction) : Prop :=
  ∀ n e, pieceFor? ps i = some (n, .entry e) → e.Fits

/-- **Writing a literal keeps a document in pieces,** and it keeps the heads.  The entry that was
written to is a value of one line now, whatever it was before, and the pieces in front of it are
read with any text behind them. -/
theorem Segmented.write : ∀ {ps : List Piece} {n : Nat} {e : Entry}, Segmented ps →
    ps[n]? = some (.entry e) → e.Fits → ∀ {literal}, IsLiteral literal →
      Segmented (ps.set n (.entry { e with value := literal }))
        ∧ (ps.set n (.entry { e with value := literal })).map Piece.head = ps.map Piece.head
  | [], _, _, _, hn, _, _, _ => by simp at hn
  | q :: ps, 0, e, h, hn, hf, literal, hl => by
    obtain rfl : q = .entry e := by simpa using hn
    -- the entry itself: a literal makes an entry of one line
    refine ⟨⟨fun behind _ => hf.reads hl.oneLine behind, h.2.1, h.2.2⟩, ?_⟩
    have h1 : (Piece.entry e).head = .key e.key := Entry.Reads.head h.reads
    have h2 := (hf.reads hl.oneLine []).head
    simp [h1, h2]
  | q :: ps, n + 1, e, h, hn, hf, literal, hl => by
    -- a piece in front of it: it is read as before, since what follows does not matter
    obtain ⟨h1, h2⟩ := Segmented.write h.2.2 (by simpa using hn) hf hl
    exact ⟨⟨fun behind hb => h.1 behind (by simpa using hb), h.2.1.imp (by simp) id, h1⟩,
      by simp [h2]⟩

/-- The last literal for a position. -/
def lastFor? (heads : List Head) : List Instruction → Nat → Option (List Char)
  | [], _ => none
  | i :: rest, n =>
    (lastFor? heads rest n).or (if targetIndex? i heads = some n then some i.literal else none)

/-- There is a literal for a position exactly if an instruction means it. -/
theorem isSome_lastFor? (heads : List Head) (n : Nat) : ∀ is : List Instruction,
    (lastFor? heads is n).isSome = is.any fun i => targetIndex? i heads == some n
  | [] => rfl
  | i :: rest => by
    rw [lastFor?, Option.isSome_or, isSome_lastFor?, List.any_cons, Bool.or_comm]
    by_cases hi : targetIndex? i heads = some n <;> simp [hi]

/-- The literal for a position is that of an instruction for it. -/
theorem mem_of_lastFor? {heads : List Head} {n : Nat} {literal : List Char} :
    ∀ {is : List Instruction}, lastFor? heads is n = some literal →
      ∃ i ∈ is, targetIndex? i heads = some n ∧ i.literal = literal
  | [], h => by simp [lastFor?] at h
  | i :: rest, h => by
    rw [lastFor?, Option.or_eq_some_iff] at h
    rcases h with h | ⟨-, h⟩
    · obtain ⟨j, hj, hn, hl⟩ := mem_of_lastFor? h
      exact ⟨j, List.mem_cons_of_mem _ hj, hn, hl⟩
    · split at h
      · next hi => exact ⟨i, List.mem_cons_self, hi, Option.some.inj h⟩
      · simp at h

/-- The document with literals in the place of values. -/
def fill (literals : Nat → Option (List Char)) (ps : List Piece) : List Piece :=
  ps.mapIdx fun n p => ((literals n).map p.write).getD p

/-- Writing into one entry and filling the others is filling all, where a later literal for the
same entry goes before the one that was written. -/
theorem fill_set {ps : List Piece} {n : Nat} {e : Entry} (hn : ps[n]? = some (.entry e))
    (literals : Nat → Option (List Char)) (literal : List Char) :
    fill literals (ps.set n (.entry { e with value := literal }))
      = fill (fun m => (literals m).or (if some n = some m then some literal else none)) ps := by
  refine List.ext_getElem? fun m => ?_
  have hlt : n < ps.length := (List.getElem?_eq_some_iff.mp hn).1
  simp only [fill, List.getElem?_mapIdx, List.getElem?_set]
  by_cases hm : n = m
  · subst hm
    rw [if_pos rfl, if_pos hlt, hn]
    cases literals n <;> simp [Piece.write]
  · rw [if_neg hm]
    simp [hm]

/-- Without literals nothing changes. -/
theorem fill_nothing (ps : List Piece) : fill (fun _ => none) ps = ps := by
  refine List.ext_getElem? fun m => ?_
  simp [fill]

/-- A position that holds no value is not changed by filling it. -/
theorem fill_congr {ps : List Piece} {before after : Nat → Option (List Char)}
    (h : ∀ n e, ps[n]? = some (.entry e) → before n = after n) :
    fill before ps = fill after ps := by
  refine List.ext_getElem? fun m => ?_
  simp only [fill, List.getElem?_mapIdx]
  rcases hm : ps[m]? with _ | p
  · rfl
  · cases p with
    | entry e => simp [h m e hm]
    | fixed text => cases before m <;> cases after m <;> rfl

/-- An instruction hits if its position holds an entry. -/
theorem hits_eq_true {ps : List Piece} {i : Instruction} :
    hits ps i = true ↔ ∃ n e, pieceFor? ps i = some (n, .entry e) := by
  unfold hits
  rcases pieceFor? ps i with _ | ⟨n, p⟩
  · simp
  · cases p <;> simp [Piece.isEntry]

/-- Writing a literal does not change what another instruction means. -/
theorem pieceFor?_write {ps : List Piece} {n : Nat} {e : Entry} {literal : List Char}
    (hn : ps[n]? = some (.entry e))
    (hh : (ps.set n (.entry { e with value := literal })).map Piece.head = ps.map Piece.head)
    (i : Instruction) :
    hits (ps.set n (.entry { e with value := literal })) i = hits ps i
      ∧ (Fillable ps i → Fillable (ps.set n (.entry { e with value := literal })) i) := by
  have hlt : n < ps.length := (List.getElem?_eq_some_iff.mp hn).1
  have he : ∀ m, (ps.set n (.entry { e with value := literal }))[m]?
      = if n = m then some (.entry { e with value := literal }) else ps[m]? := by
    intro m
    rw [List.getElem?_set, if_pos hlt]
  -- the positions are those of the heads, which are as before; only the entry that was written to
  -- is another one, with the same lead and the same rest
  constructor
  · rw [Bool.eq_iff_iff, hits_eq_true, hits_eq_true]
    simp only [pieceFor?_eq_some, hh, he]
    constructor
    · rintro ⟨m, e', hm, hp⟩
      split at hp
      · exact ⟨m, e, hm, by simp_all⟩
      · exact ⟨m, e', hm, hp⟩
    · rintro ⟨m, e', hm, hp⟩
      by_cases hnm : n = m
      · exact ⟨m, { e with value := literal }, hm, by simp [hnm]⟩
      · exact ⟨m, e', hm, by simpa [hnm] using hp⟩
  · intro hf m e' hp
    obtain ⟨hm, hp⟩ := pieceFor?_eq_some.mp hp
    rw [hh] at hm
    rw [he] at hp
    split at hp
    · next hnm =>
      obtain rfl : ({ e with value := literal } : Entry) = e' := by simpa using hp
      exact hf n e (pieceFor?_eq_some.mpr ⟨hnm ▸ hm, hn⟩)
    · exact hf m e' (pieceFor?_eq_some.mpr ⟨hm, hp⟩)

/-- **Carrying out instructions one after the other** leaves the last literal for each position,
and misses exactly those whose position holds no value.  Which instructions hit is decided on the
first document, for the heads never change; so the order of hits and misses among them plays no
part. -/
theorem patchAll_textOf : ∀ {is : List Instruction} {ps : List Piece}, Segmented ps →
    (∀ i ∈ is, IsLiteral i.literal) → (∀ i ∈ is, Fillable ps i) →
      patchAll (textOf ps) is
        = ⟨textOf (fill (lastFor? (ps.map Piece.head) is) ps), is.filter (hits ps),
            is.filter fun i => !hits ps i⟩
  | [], ps, _, _, _ => by simp [patchAll, lastFor?, fill_nothing]
  | i :: rest, ps, h, hl, hf => by
    have hl' : ∀ j ∈ rest, IsLiteral j.literal := fun j hj => hl j (by simp [hj])
    have hf' : ∀ j ∈ rest, Fillable ps j := fun j hj => hf j (by simp [hj])
    rw [patchAll, patch?_textOf h]
    -- the instruction writes, and the rest is carried out on the document written to; or it misses,
    -- and the rest is carried out on the same document
    cases hit : hits ps i with
    | true =>
      obtain ⟨n, e, hp⟩ := hits_eq_true.mp hit
      obtain ⟨hn, he⟩ := pieceFor?_eq_some.mp hp
      obtain ⟨hseg, hheads⟩ := h.write he (hf i (by simp) n e hp) (hl i (by simp))
      have hw := pieceFor?_write he hheads
      have ih := patchAll_textOf hseg hl' fun j hj => (hw j).2 (hf' j hj)
      have hhits : hits (ps.set n (.entry { e with value := i.literal })) = hits ps :=
        funext fun j => (hw j).1
      rw [hheads, fill_set he, hhits] at ih
      simp [hp, Piece.isEntry, Piece.write, ih, hit, lastFor?, hn]
    | false =>
      have hmiss : ∀ n p, pieceFor? ps i = some (n, p) → p.isEntry = false := by
        intro n p hp
        simpa [hits, hp] using hit
      -- its literal is for a position without a value, so leaving it out fills the same
      have hfill : fill (lastFor? (ps.map Piece.head) (i :: rest)) ps
          = fill (lastFor? (ps.map Piece.head) rest) ps := by
        refine fill_congr fun n e he => ?_
        have hn : targetIndex? i (ps.map Piece.head) ≠ some n := by
          intro hn
          simpa [Piece.isEntry] using hmiss n _ (pieceFor?_eq_some.mpr ⟨hn, he⟩)
        simp [lastFor?, hn]
      have hnone : ((pieceFor? ps i).bind fun (n, p) =>
          if p.isEntry then some (textOf (ps.set n (p.write i.literal))) else none) = none := by
        rcases hp : pieceFor? ps i with _ | ⟨n, p⟩
        · rfl
        · simp [hmiss n p hp]
      rw [hnone, hfill, patchAll_textOf h hl' hf']
      simp [hit]

end TomlKeep
