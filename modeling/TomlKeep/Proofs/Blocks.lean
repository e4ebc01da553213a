/-
# A document in blocks

The grammar reads a document block by block: a line without a statement, a header, or an entry with
all the lines of its value.  A block is taken off whatever text it stands in front of
(`Block.Formed.readLines?`), so the statements of a document are those of its blocks
(`readLines?_blocksText`), and every document that can be read is made of blocks
(`exists_blocks`).

An entry is cut where its value begins and where it ends.  What stands in front of the value is the
lead of an assignment for the line reader too (`EntryLead`), and the heading of a header is a header
(`HeaderLead`).
-/
import TomlKeep.Proofs.KeyReading

namespace TomlKeep

open Text Toml

/-! ## 1. The rest of a line

Whether a text can stand behind a line is a matter of the line end: without one it is the last line.
All that is said here of the rest of a line is said for every text that may follow, since the blocks
behind a value that is changed are others than before.
-/

/-- Whether a text may follow the rest of a line: it ends in a line end, or nothing follows. -/
def MayFollow (rest behind : List Char) : Prop := rest.getLast? = some '\n' ∨ behind = []

/-- **The rest of a line** behind a value or a header: a gap, a comment and the line end. -/
structure LineRest (rest : List Char) : Prop where
  shape : ∃ gap comment ending, rest = gap ++ comment ++ LineEnd.chars ending ∧ IsTail gap comment
    ∧ '\n' ∉ comment ∧ '\r' ∉ comment
  skipped : ∀ behind, MayFollow rest behind → skipLine? false (rest ++ behind) = some behind

/-- Nothing may follow any line. -/
theorem mayFollow_nil (rest : List Char) : MayFollow rest [] := .inr rfl

/-- Texts that may follow the rest of a line are as good as each other for a reader of the line. -/
theorem MayFollow.sameLine {rest a b : List Char} (ha : MayFollow rest a) (hb : MayFollow rest b) :
    SameLine (rest ++ a) (rest ++ b) := by
  rcases ha with h | rfl
  · obtain ⟨front, rfl⟩ : ∃ front, rest = front ++ ['\n'] := List.getLast?_eq_some_iff.mp h
    rw [List.append_assoc, List.append_assoc]
    exact (SameLine.stop (.inl rfl) a b).append front
  · rcases hb with h | rfl
    · obtain ⟨front, rfl⟩ : ∃ front, rest = front ++ ['\n'] := List.getLast?_eq_some_iff.mp h
      rw [List.append_assoc, List.append_assoc]
      exact (SameLine.stop (.inl rfl) [] b).append front
    · exact .refl _

/-- A gap, a comment and a line end, which ends the line if it is there.  Neither of the other
two has a line feed. -/
theorem mayFollow_ending {gap comment behind : List Char} {ending : LineEnd}
    (ht : IsTail gap comment) (hn : '\n' ∉ comment) :
    MayFollow (gap ++ comment ++ ending.chars) behind ↔ (ending = .none → behind = []) := by
  have hgap : '\n' ∉ gap := fun hm => absurd (ht.gap _ hm) (by decide)
  cases ending with
  | none =>
    simp only [MayFollow, LineEnd.chars, List.append_nil, forall_const]
    refine ⟨fun h => h.resolve_left fun hl => ?_, .inr⟩
    have := List.mem_of_mem_getLast? hl
    simp [hgap, hn] at this
  | lf | crlf => simp [MayFollow, LineEnd.chars, List.getLast?_append]

/-- **What is left of a line** is taken off the text.  It has the shape of the rest of a line,
and it is skipped in front of whatever may follow. -/
theorem exists_lineRest {text behind : List Char} (h : skipLine? false text = some behind) :
    ∃ rest, text = rest ++ behind ∧ LineRest rest ∧ MayFollow rest behind := by
  obtain ⟨gap, comment, ending, rfl, ht, hn, hr, hend, hskip⟩ := skipLine?_eq_some h
  refine ⟨_, rfl, ⟨⟨gap, comment, ending, rfl, ht, hn, hr⟩, fun other ho => ?_⟩,
    (mayFollow_ending ht hn).mpr hend⟩
  exact hskip other ((mayFollow_ending ht hn).mp ho)

/-- A gap is skipped. -/
theorem skipLine?_gap (rest : List Char) : ∀ {gap : List Char}, IsGapText gap →
    skipLine? false (gap ++ rest) = skipLine? false rest
  | [], _ => rfl
  | c :: gap, h => by
    obtain ⟨hc, hg⟩ := List.forall_mem_cons.mp h
    have hn : c ≠ '\n' ∧ c ≠ '\r' := by
      refine ⟨?_, ?_⟩ <;>
      · rintro rfl
        exact absurd hc (by decide)
    rw [List.cons_append, skipLine?, if_neg hn.1, if_neg hn.2, if_neg Bool.false_ne_true, if_pos hc,
      skipLine?_gap rest hg]

/-! ## 2. What stands in front

The two leads say for both readers at once what the text before a value, or a whole header, is: what
the grammar takes it for, and what the line reader makes of it.  That their keys agree is a
condition on the escapes of the lead (`sharedEscapes`) and not a part of being a lead.
-/

/-- The reader of lines comes to a statement, which it takes with this result. -/
def Begins (text : List Char) (result : Option (Statement × List Char)) : Prop :=
  ∃ c more, text.dropWhile isGap = c :: more ∧ ¬ (c = '\n' ∨ c = '\r' ∨ c = '#')
    ∧ takeStatement? (c :: more) = result

/-- A lead on one line. -/
structure LineLead (lead : List Char) (key : KeyPath) : Prop where
  isLead : IsLead key lead
  feed : '\n' ∉ lead
  ret : lead.getLast? ≠ some '\r'

/-- **The lead of an entry:** a key, an equals sign and gaps, for the grammar and for the line
reader alike. -/
structure EntryLead (lead : List Char) (path : List String) (key : KeyPath) : Prop
    extends LineLead lead key where
  agree : key.parts = path ↔ sharedEscapes .outside lead = true
  taken : ∀ body, (∀ c, body.head? = some c → isGap c = false) → Begins (lead ++ body)
    ((takeTerm? maxNesting body).map fun (term, behind) => (.entry path term, behind))

/-- **The heading of a section:** a key in brackets, for the grammar and for the line reader
alike. -/
structure HeaderLead (lead : List Char) (path : List String) (heading : Header) : Prop where
  classify : ∀ gap comment, IsTail gap comment →
    classify (lead ++ (gap ++ comment)) = .header heading
  agree : heading.path.parts = path ↔ sharedEscapes .outside lead = true
  noKeyEnd : Outside (fun c => !isKeyEnd c) lead
  feed : '\n' ∉ lead
  ret : lead.getLast? ≠ some '\r'
  ne_nil : lead ≠ []

/-- The text behind a gap. -/
theorem dropWhile_gap {gap text : List Char} (hg : IsGapText gap)
    (ht : ∀ c, text.head? = some c → isGap c = false) : (gap ++ text).dropWhile isGap = text :=
  (takeWhile_append_stop hg ht).2

/-- A character that is not blank is no gap. -/
theorem isGap_of_not_isBlank {c : Char} (h : isBlank c = false) : isGap c = false := by
  rw [Bool.eq_false_iff]
  intro hg
  simp [isBlank_of_isGap hg] at h

/-- A key begins a statement, and no header. -/
theorem IsKey.begins {key : List Char} {names : List (List Char)} (h : IsKey key names) {c : Char}
    (hc : key.head? = some c) : isGap c = false ∧ c ≠ '\n' ∧ c ≠ '\r' ∧ c ≠ '#' ∧ c ≠ '[' := by
  obtain ⟨h1, h2, h3⟩ := h.head_ne hc
  refine ⟨isGap_of_not_isBlank h1, ?_, ?_, h2, h3⟩ <;>
  · rintro rfl
    exact absurd h1 (by decide)

/-- **A key, an equals sign and a gap begin an entry,** whatever value stands behind them.  The
key is given by what is taken for it, since its name is that of the grammar and may not be that
of the line reader. -/
theorem IsKey.begins_entry {front key after gap body : List Char} {names : List (List Char)}
    {path : List String} (hk : IsKey key names) (hf : IsGapText front) (hg : IsGapText gap)
    (hbody : ∀ c, body.head? = some c → isGap c = false)
    (htake : takeKey? maxKeyParts (key ++ after ++ '=' :: (gap ++ body))
      = some (path, '=' :: (gap ++ body))) :
    Begins (front ++ (key ++ after ++ '=' :: gap) ++ body)
      ((takeTerm? maxNesting body).map fun (term, behind) => (.entry path term, behind)) := by
  obtain ⟨c, rest, hc⟩ := List.exists_cons_of_ne_nil hk.ne_nil
  obtain ⟨h1, h2, h3, h4, h5⟩ := hk.begins (c := c) (by rw [hc]; rfl)
  have hdrop : (front ++ (key ++ after ++ '=' :: gap) ++ body).dropWhile isGap
      = key ++ (after ++ '=' :: (gap ++ body)) := by
    rw [List.append_assoc, dropWhile_gap hf]
    · simp
    · intro d hd
      rw [hc] at hd
      obtain rfl : c = d := by simpa using hd
      exact h1
  refine ⟨c, rest ++ (after ++ '=' :: (gap ++ body)), by rw [hdrop, hc]; rfl, by simp [h2, h3, h4],
    ?_⟩
  rw [hc] at htake
  -- no header begins here, so the reader takes a binding
  have hstart : startsIn (· == '[') (c :: (rest ++ (after ++ '=' :: (gap ++ body)))) = false := by
    simp [startsIn, h5]
  have hcons : c :: (rest ++ (after ++ '=' :: (gap ++ body)))
      = c :: rest ++ after ++ '=' :: (gap ++ body) := by simp
  have hskip : skipGap? ('=' :: (gap ++ body)) = some ('=' :: (gap ++ body)) := rfl
  have hskip' : skipGap? (gap ++ body) = some body := congrArg some (dropWhile_gap hg hbody)
  rw [takeStatement?, if_neg (by rw [hstart]; exact Bool.false_ne_true), hcons, takeBinding?_eq,
    htake, Option.bind_some]
  simp only [hskip, Option.bind_some, startsIn, beq_self_eq_true, if_true, List.drop_succ_cons,
    List.drop_zero, hskip', Option.map_map]
  rfl

/-- An entry from its value on. -/
def fromValue? (text : List Char) : Option (List Char) :=
  (takeKey? maxKeyParts text).map fun (_, behind) => (behind.drop 1).dropWhile isGap

/-- **The lead of an entry that the grammar takes.**  The text is cut behind the equals sign and
its gap, and the lead is a lead in front of every other value. -/
theorem exists_entryLead {front text tail : List Char} {path : List String} {term : Term}
    (hf : IsGapText front) (hh : ∀ c, text.head? = some c → isGap c = false)
    (h : takeBinding? skipGap? (takeTerm? maxNesting) text = some ((path, term), tail)) :
    ∃ lead body key, text = lead ++ body ∧ fromValue? text = some body
      ∧ (∀ c, body.head? = some c → isGap c = false) ∧ takeTerm? maxNesting body = some (term, tail)
      ∧ EntryLead (front ++ lead) path key := by
  rw [takeBinding?_eq] at h
  obtain ⟨⟨path', text1⟩, h1, h⟩ := Option.bind_eq_some_iff.mp h
  obtain ⟨text2, h2, h⟩ := Option.bind_eq_some_iff.mp h
  obtain ⟨before, key, after, names, hkey, hb, ha, hk, hnames, hhead⟩ := exists_isKey h1
  obtain ⟨piece, hp, hl⟩ := local_takeKey? maxKeyParts h1
  obtain rfl : before ++ (key ++ after) = piece := List.append_cancel_right (hkey.symm.trans hp)
  -- nothing stands in front of the key, and the equals sign right behind it
  obtain rfl : before = [] := by
    cases before with
    | nil => rfl
    | cons d before =>
      have := hh d (by rw [hkey]; rfl)
      simp [hb d (by simp)] at this
  obtain rfl : text1 = text2 := by
    have hdrop := dropWhile_gap (fun _ hc => absurd hc List.not_mem_nil) hhead
    exact Option.some.inj (((congrArg some hdrop).symm).trans h2)
  split at h
  · next heq =>
    obtain ⟨body, h3, h⟩ := Option.bind_eq_some_iff.mp h
    obtain ⟨⟨term', tail'⟩, h4, he⟩ := Option.map_eq_some_iff.mp h
    obtain ⟨hpath, rfl⟩ := Prod.mk.inj he
    obtain ⟨rfl, rfl⟩ := Prod.mk.inj hpath
    obtain ⟨gap, hg, hgap⟩ := exists_gap (text1.drop 1)
    have hbody : (text1.drop 1).dropWhile isGap = body := Option.some.inj h3
    rw [hbody] at hgap
    have hbhead : ∀ c, body.head? = some c → isGap c = false := by
      intro c hc
      have := List.head?_dropWhile_not isGap (text1.drop 1)
      rw [hbody, hc] at this
      simpa using this
    have htext1 : text1 = '=' :: (gap ++ body) := by rw [← hgap, ← eq_cons_of_startsIn heq]
    refine ⟨key ++ after ++ '=' :: gap, body, ⟨names.map String.ofList⟩, ?_, ?_, hbhead, h4,
      ⟨?_, ?_, ?_⟩, ?_, fun body' hbody' => ?_⟩
    · rw [hkey, htext1]
      simp
    · simp only [fromValue?, h1, Option.map_some, hbody]
    · have := hk.isLead hf ha hg
      simpa using this
    · simp [hk.feed, hf.not_mem (c := '\n') (by decide), ha.not_mem (c := '\n') (by decide),
        hg.not_mem (c := '\n') (by decide)]
    · rw [← List.append_assoc, List.getLast?_append_of_ne_nil _ (by simp)]
      intro hlast
      rcases List.mem_cons.mp (List.mem_of_mem_getLast? hlast) with h | h
      · exact absurd h (by decide)
      · exact absurd (hg _ h) (by decide)
    · have hkeyout : Outside (fun _ => true) key := hk.outside _ (fun _ _ => rfl) rfl rfl rfl
      have hbehind : sharedEscapes .outside (after ++ '=' :: gap) = true := by
        have hgap := sharedEscapes_gap hg []
        rw [List.append_nil] at hgap
        rw [sharedEscapes_gap ha, sharedEscapes_outside_cons, if_neg (by decide),
          if_neg (by decide), hgap, sharedEscapes_nil]
      rw [hnames, sharedEscapes_gap hf, List.append_assoc, sharedEscapes_append hkeyout, hbehind,
        Bool.and_true]
    -- the reader of the key stops at the equals sign, so another value may stand behind it
    · have hsame : SameLine text1 ('=' :: (gap ++ body')) := by
        rw [htext1]
        exact .stop (.inr rfl) _ _
      exact hk.begins_entry hf hg hbody' (hl _ hsame)
  · cases h

/-- Brackets have no escapes. -/
theorem sharedEscapes_headerBrackets (array : Bool) (rest : List Char) :
    sharedEscapes .outside (headerBrackets array '[' ++ rest) = sharedEscapes .outside rest := by
  cases array <;> simp [headerBrackets, sharedEscapes_outside_cons]

/-- They are brackets only. -/
theorem not_mem_headerBrackets {array : Bool} {c d : Char} (h : d ≠ c) :
    d ∉ headerBrackets array c := by
  cases array <;> simp [headerBrackets, h]

/-- **The heading of a header that the grammar takes.**  A header has nothing that could be
changed, so it is kept as one piece and its rest of the line may be any. -/
theorem exists_headerLead {front text tail : List Char} {statement : Statement}
    (hf : IsGapText front) (hs : startsIn (· == '[') text = true)
    (h : takeHeader? text = some (statement, tail)) : ∃ lead path heading,
      statement = .header path heading.array ∧ text = lead ++ tail
        ∧ HeaderLead (front ++ lead) path heading
        ∧ ∀ other, SameLine tail other →
          Begins (front ++ (lead ++ other)) (some (.header path heading.array, other)) := by
  obtain ⟨array, path, before, key, after, names, rfl, htext, hb, ha, hk, hnames, hl⟩ :=
    exists_header hs h
  refine ⟨headerBrackets array '[' ++ (before ++ (key ++ after) ++ headerBrackets array ']'), path,
    ⟨⟨names.map String.ofList⟩, array⟩, rfl, by rw [htext]; simp, ⟨fun gap comment ht => ?_, ?_,
    ?_, ?_, ?_, ?_⟩, fun other ho => ?_⟩
  · have := hk.classify_header array hf hb ha ht
    simpa using this
  · have hkeyout : Outside (fun _ => true) key := hk.outside _ (fun _ _ => rfl) rfl rfl rfl
    have hbehind : sharedEscapes .outside (after ++ headerBrackets array ']') = true := by
      rw [sharedEscapes_gap ha]
      cases array <;> rfl
    rw [hnames, sharedEscapes_gap hf, sharedEscapes_headerBrackets, List.append_assoc,
      sharedEscapes_gap hb, List.append_assoc, sharedEscapes_append hkeyout, hbehind, Bool.and_true]
  -- no bracket, gap or key holds an equals sign or a hash outside quotes
  · have hgap {gap : List Char} (hg : IsGapText gap) : Outside (fun c => !isKeyEnd c) gap :=
      hg.outside (by decide) (by decide)
    have hbrackets {c : Char} (hc : c = '[' ∨ c = ']') :
        Outside (fun c => !isKeyEnd c) (headerBrackets array c) := by
      refine outside_of_forall fun d hd => ?_
      obtain rfl : d = c := by cases array <;> simpa [headerBrackets] using hd
      rcases hc with rfl | rfl <;> decide
    exact (hgap hf).append <| (hbrackets (.inl rfl)).append <|
      ((hgap hb).append (hk.noKeyEnd.append (hgap ha))).append (hbrackets (.inr rfl))
  · simp [hk.feed, hf.not_mem (c := '\n') (by decide), hb.not_mem (c := '\n') (by decide),
      ha.not_mem (c := '\n') (by decide), not_mem_headerBrackets]
  · rw [← List.append_assoc, ← List.append_assoc]
    cases array
    · rw [List.getLast?_append_of_ne_nil _ (by simp [headerBrackets])]
      decide
    · rw [List.getLast?_append_of_ne_nil _ (by simp [headerBrackets])]
      decide
  · simp [hk.ne_nil]
  · have hbracket : ∃ more, headerBrackets array '[' ++ (before ++ (key ++ after)
        ++ (headerBrackets array ']' ++ other)) = '[' :: more := by
      cases array <;> exact ⟨_, rfl⟩
    obtain ⟨more, hmore⟩ := hbracket
    have htake := hl other ho
    rw [hmore] at htake
    refine ⟨'[', more, ?_, by decide, ?_⟩
    · rw [dropWhile_gap hf]
      · rw [← hmore]
        simp
      · have hcons :
            headerBrackets array '[' ++ (before ++ (key ++ after) ++ headerBrackets array ']')
            ++ other = '[' :: more := by
          rw [← hmore]
          simp
        rw [hcons]
        simp only [List.head?_cons, Option.some.injEq, forall_eq']
        decide
    · have hstart : startsIn (· == '[') ('[' :: more) = true := rfl
      rw [takeStatement?, if_pos hstart, htake]

/-! ## 3. Blocks

A block is cut where its value begins and ends, and it is formed if its pieces are what the grammar
takes them for in front of any text that may follow.  So blocks can be put together freely as long
as each line that has another behind it has a line end.
-/

/-- A part of a document that the grammar reads in one go, cut where the value begins and ends.
What has no value has an empty one, and all of a line without a statement is its rest. -/
structure Block where
  lead : List Char
  value : List Char
  rest : List Char
  statement? : Option Statement

/-- The text of a block. -/
def Block.text (b : Block) : List Char := b.lead ++ (b.value ++ b.rest)

/-- The text of blocks. -/
def blocksText (bs : List Block) : List Char := bs.flatMap Block.text

/-- **A value that the grammar takes** in front of the rest of its line. -/
structure Stands (value rest : List Char) (term : Term) : Prop where
  head : ∀ c, value.head? = some c → isGap c = false
  ne_nil : value ≠ []
  taken : ∀ behind, MayFollow rest behind →
    takeTerm? maxNesting (value ++ (rest ++ behind)) = some (term, rest ++ behind)

/-- A value with something behind it begins like the value. -/
theorem Stands.head_append {value rest : List Char} {term : Term} (h : Stands value rest term)
    (more : List Char) : ∀ c, (value ++ more).head? = some c → isGap c = false := by
  intro c hc
  rw [List.head?_append_of_ne_nil _ h.ne_nil] at hc
  exact h.head c hc

/-- **A block that the grammar reads.** -/
inductive Block.Formed : Block → Prop where
  | blank {rest : List Char} : LineRest rest → Formed ⟨[], [], rest, none⟩
  | header {lead rest : List Char} {path : List String} {heading : Header} :
      HeaderLead lead path heading → LineRest rest →
      (∀ behind, MayFollow rest behind →
        Begins (lead ++ (rest ++ behind)) (some (.header path heading.array, rest ++ behind))) →
      Formed ⟨lead, [], rest, some (.header path heading.array)⟩
  | entry {lead value rest : List Char} {path : List String} {term : Term} {key : KeyPath} :
      EntryLead lead path key → LineRest rest → Stands value rest term →
      Formed ⟨lead, value, rest, some (.entry path term)⟩

/-- **A document made of blocks.** -/
def IsDocument : List Block → Prop
  | [] => True
  | b :: bs => b.Formed ∧ b.text ≠ [] ∧ MayFollow b.rest (blocksText bs) ∧ IsDocument bs

@[simp] theorem blocksText_nil : blocksText [] = [] := rfl

@[simp] theorem blocksText_cons (b : Block) (bs : List Block) :
    blocksText (b :: bs) = b.text ++ blocksText bs := rfl

/-- Behind its gap the rest of a line goes on with a comment or ends. -/
theorem LineRest.head {rest behind : List Char} (h : LineRest rest) (hb : MayFollow rest behind)
    {c : Char} (hc : ((rest ++ behind).dropWhile isGap).head? = some c) :
    c = '\n' ∨ c = '\r' ∨ c = '#' := by
  obtain ⟨gap, comment, ending, rfl, ht, hn, -⟩ := h.shape
  have hend := (mayFollow_ending ht hn).mp hb
  have hhead : ∀ d, (comment ++ (ending.chars ++ behind)).head? = some d →
      d = '\n' ∨ d = '\r' ∨ d = '#' := by
    intro d hd
    -- a comment begins with a hash, and without one the line ends here
    cases comment with
    | cons e comment =>
      obtain rfl : e = d := by simpa using hd
      exact .inr (.inr (ht.comment e rfl))
    | nil =>
      cases ending with
      | none => simp [LineEnd.chars, hend rfl] at hd
      | lf => exact .inl (by simpa [LineEnd.chars, eq_comm] using hd)
      | crlf => exact .inr (.inl (by simpa [LineEnd.chars, eq_comm] using hd))
  rw [List.append_assoc, List.append_assoc, dropWhile_gap ht.gap] at hc
  · exact hhead c hc
  · intro d hd
    rcases hhead d hd with rfl | rfl | rfl <;> decide

/-- A line without a statement is passed over. -/
theorem LineRest.readLines? {rest behind : List Char} (h : LineRest rest)
    (hb : MayFollow rest behind) (bound : Nat) :
    readLines? (bound + 2) (rest ++ behind) = readLines? (bound + 1) behind := by
  obtain ⟨gap, hg, hdrop⟩ := exists_gap (rest ++ behind)
  have hskip := h.skipped behind hb
  rw [hdrop, skipLine?_gap _ hg] at hskip
  rw [Toml.readLines?]
  cases hcons : (rest ++ behind).dropWhile isGap with
  | nil =>
    rw [hcons] at hskip
    obtain rfl := Option.some.inj hskip
    rfl
  | cons c more =>
    rw [hcons] at hskip
    have hc := h.head hb (c := c) (by rw [hcons]; rfl)
    simp only [if_pos hc, hskip]

/-- A statement is put before those of the text behind its line. -/
theorem Begins.readLines? {text rest behind : List Char} {statement : Statement}
    (h : Begins text (some (statement, rest ++ behind))) (hr : LineRest rest)
    (hb : MayFollow rest behind) (bound : Nat) :
    readLines? (bound + 1) text = (readLines? bound behind).map (statement :: ·) := by
  obtain ⟨c, more, hdrop, hc, htake⟩ := h
  rw [Toml.readLines?, hdrop]
  simp only [if_neg hc, htake, hr.skipped behind hb]

/-- **A block is read on its own,** whatever it stands in front of. -/
theorem Block.Formed.readLines? {b : Block} (h : b.Formed) {behind : List Char}
    (hb : MayFollow b.rest behind) (bound : Nat) :
    readLines? (bound + 2) (b.text ++ behind)
      = (readLines? (bound + 1) behind).map (b.statement?.toList ++ ·) := by
  cases h with
  | blank hr =>
    rw [Block.text, List.nil_append, List.nil_append, hr.readLines? hb]
    simp
  | header hl hr ht =>
    have := (ht behind hb).readLines? hr hb (bound + 1)
    simpa [Block.text] using this
  | @entry lead value rest path term key hl hr hv =>
    have hbegin := hl.taken (value ++ (rest ++ behind)) (hv.head_append _)
    rw [hv.taken behind hb, Option.map_some] at hbegin
    have := hbegin.readLines? hr hb (bound + 1)
    simpa [Block.text] using this

/-- **The statements of a document are those of its blocks.**  Each block uses one round of the
reader, so a bound above their number does. -/
theorem readLines?_blocksText : ∀ {bs : List Block} {bound : Nat}, IsDocument bs →
    bs.length < bound →
      readLines? bound (blocksText bs) = some (bs.filterMap Block.statement?)
  | [], bound + 1, _, _ => rfl
  | b :: bs, bound + 2, h, hb => by
    have ih := readLines?_blocksText h.2.2.2 (Nat.lt_of_succ_lt_succ hb)
    rw [blocksText_cons, h.1.readLines? h.2.2.1, ih, List.filterMap_cons]
    cases b.statement? <;> rfl

/-! ## 4. Cutting a document into blocks

The other direction follows the reader through a text and cuts at the places where it cuts.  The
cutting is a function (`blocks?`), so that the blocks of a text can be computed; what it gives is a
document in the sense above.
-/

/-- What of a text stands in front of its end. -/
def upTo (text rest : List Char) : List Char := text.take (text.length - rest.length)

@[simp] theorem upTo_append (front rest : List Char) : upTo (front ++ rest) rest = front := by
  simp [upTo]

/-- The block of a statement that begins at `inner`; `tail` is what stands behind the statement. -/
def statementBlock (text inner : List Char) (statement : Statement) (tail behind : List Char) :
    Block :=
  let body := (fromValue? inner).getD tail
  ⟨upTo text body, upTo body tail, upTo tail behind, some statement⟩

/-- Takes a block off a text. -/
def takeBlock? (text : List Char) : Option (Block × List Char) :=
  match text.dropWhile isGap with
  | [] => some (⟨[], [], text, none⟩, [])
  | c :: more =>
    if c = '\n' ∨ c = '\r' ∨ c = '#' then
      (skipLine? false (c :: more)).map fun behind => (⟨[], [], upTo text behind, none⟩, behind)
    else
      (takeStatement? (c :: more)).bind fun (statement, tail) =>
        (skipLine? false tail).map fun behind =>
          (statementBlock text (c :: more) statement tail behind, behind)

/-- Cuts a text into at most `bound` blocks. -/
def readBlocks? : Nat → List Char → Option (List Block)
  | 0, _ => none
  | _ + 1, [] => some []
  | bound + 1, c :: text =>
    (takeBlock? (c :: text)).bind fun (b, behind) => (readBlocks? bound behind).map (b :: ·)

/-- The blocks of a text. -/
def blocks? (text : List Char) : Option (List Block) := readBlocks? (text.length + 1) text

/-- A header has no value: a bracket begins no key. -/
theorem fromValue?_bracket {text : List Char} (h : startsIn (· == '[') text = true) :
    fromValue? text = none := by
  have hkey : takeSimpleKey? ('[' :: text.drop 1) = none := rfl
  have hgap : ('[' :: text.drop 1).dropWhile isGap = '[' :: text.drop 1 := rfl
  rw [eq_cons_of_startsIn h, fromValue?, maxKeyParts, takeKey?_succ, hgap, hkey]
  rfl

/-- A term that the grammar takes off a line stands in front of the rest of the line, and so it
does in front of anything else that may follow. -/
theorem exists_stands {body rest behind : List Char} {term : Term}
    (hh : ∀ c, body.head? = some c → isGap c = false)
    (h : takeTerm? maxNesting body = some (term, rest ++ behind)) (hr : LineRest rest)
    (hb : MayFollow rest behind) :
    ∃ value, body = value ++ (rest ++ behind) ∧ Stands value rest term := by
  obtain ⟨value, rfl, hl⟩ := local_takeTerm? maxNesting h
  -- a term is not empty, because no term begins with what the rest of a line begins with
  have hne : value ≠ [] := by
    rintro rfl
    rw [List.nil_append] at h hh
    have hdrop : (rest ++ behind).dropWhile isGap = rest ++ behind :=
      dropWhile_gap (fun _ hc => absurd hc List.not_mem_nil) hh
    have hnone := takeTerm?_eq_none (fun c hc => hr.head hb (by rwa [hdrop])) maxNesting
    rw [hnone] at h
    cases h
  refine ⟨value, rfl, fun c hc => hh c ?_, hne, fun other ho => hl _ (hb.sameLine ho)⟩
  rwa [List.head?_append_of_ne_nil _ hne]

/-- A line without a statement is a block. -/
theorem blank_of_skipLine? {text behind : List Char} (h : skipLine? false text = some behind) :
    text = upTo text behind ++ behind ∧ Block.Formed ⟨[], [], upTo text behind, none⟩
      ∧ MayFollow (upTo text behind) behind := by
  obtain ⟨rest, rfl, hr, hb⟩ := exists_lineRest h
  rw [upTo_append]
  exact ⟨rfl, .blank hr, hb⟩

/-- **A block is taken off a text,** and it is formed: the three kinds of blocks are the three
cases of the reader, with a gap in front. -/
theorem formed_of_takeBlock? {text behind : List Char} {b : Block}
    (h : takeBlock? text = some (b, behind)) :
    text = b.text ++ behind ∧ b.Formed ∧ MayFollow b.rest behind := by
  obtain ⟨front, hf, htext⟩ := exists_gap text
  have hstart := List.head?_dropWhile_not isGap text
  unfold takeBlock? at h
  split at h
  · next hdrop =>
    obtain ⟨rfl, rfl⟩ := Prod.mk.inj (Option.some.inj h)
    have hskip : skipLine? false text = some [] := by rw [htext, hdrop, skipLine?_gap _ hf]; rfl
    have hblank := blank_of_skipLine? hskip
    simpa [upTo, Block.text] using hblank
  · next c more hdrop =>
    rw [hdrop] at htext hstart
    split at h
    · obtain ⟨behind', hs, he⟩ := Option.map_eq_some_iff.mp h
      obtain ⟨rfl, rfl⟩ := Prod.mk.inj he
      rw [← skipLine?_gap _ hf, ← htext] at hs
      exact blank_of_skipLine? hs
    · obtain ⟨⟨statement, tail⟩, ht, h⟩ := Option.bind_eq_some_iff.mp h
      obtain ⟨behind', hs, he⟩ := Option.map_eq_some_iff.mp h
      obtain ⟨rfl, rfl⟩ := Prod.mk.inj he
      obtain ⟨rest, rfl, hr, hb⟩ := exists_lineRest hs
      unfold takeStatement? at ht
      split at ht
      · next hbracket =>
        -- a header
        obtain ⟨lead, path, heading, rfl, hlead, hheader, htaken⟩ :=
          exists_headerLead hf hbracket ht
        have htext' : text = front ++ lead ++ (rest ++ behind') := by
          rw [htext, hlead, List.append_assoc]
        have hself : upTo (rest ++ behind') (rest ++ behind') = [] := by simp [upTo]
        simp only [statementBlock, fromValue?_bracket hbracket, Option.getD_none, htext',
          upTo_append, hself]
        refine ⟨by simp [Block.text], .header hheader hr fun other ho => ?_, hb⟩
        rw [List.append_assoc]
        exact htaken _ (hb.sameLine ho)
      · obtain ⟨⟨⟨path, term⟩, tail'⟩, hbinding, he⟩ := Option.map_eq_some_iff.mp ht
        obtain ⟨rfl, rfl⟩ := Prod.mk.inj he
        -- an entry
        have hhead : ∀ d, (c :: more).head? = some d → isGap d = false := by
          intro d hd
          obtain rfl : c = d := by simpa using hd
          simpa using hstart
        obtain ⟨lead, body, key, hlead, hbody, hbhead, hterm, hentry⟩ :=
          exists_entryLead hf hhead hbinding
        obtain ⟨value, rfl, hv⟩ := exists_stands hbhead hterm hr hb
        have htext' : text = front ++ lead ++ (value ++ (rest ++ behind')) := by
          rw [htext, hlead, List.append_assoc]
        simp only [statementBlock, hbody, Option.getD_some, htext', upTo_append]
        exact ⟨by simp [Block.text], .entry hentry hr hv, hb⟩

/-- Where lines can be read a block can be taken. -/
theorem takeBlock?_of_readLines? {bound : Nat} {text : List Char} {statements : List Statement}
    (h : readLines? (bound + 1) text = some statements) : ∃ b behind,
      takeBlock? text = some (b, behind)
        ∧ (behind = [] ∨ ∃ others, readLines? bound behind = some others) := by
  rw [Toml.readLines?] at h
  split at h
  · next hdrop => exact ⟨_, _, by rw [takeBlock?, hdrop], .inl rfl⟩
  · next c more hdrop =>
    rw [takeBlock?, hdrop]
    simp only
    split at h
    · next hc =>
      split at h
      · cases h
      · next behind hs => exact ⟨_, behind, by rw [if_pos hc, hs]; rfl, .inr ⟨_, h⟩⟩
    · next hc =>
      split at h
      · cases h
      · next statement tail ht =>
        split at h
        · cases h
        · next behind hs =>
          obtain ⟨others, ho, -⟩ := Option.map_eq_some_iff.mp h
          refine ⟨statementBlock text (c :: more) statement tail behind, behind, ?_,
            .inr ⟨others, ho⟩⟩
          rw [if_neg hc, ht, Option.bind_some]
          simp only [hs, Option.map_some]

/-- **Every document that can be read is made of blocks,** and they are those that the cutting
finds.  A block has at least one character, so the reader has rounds enough for the text behind
it. -/
theorem exists_blocks : ∀ {bound : Nat} {text : List Char} {statements : List Statement},
    readLines? bound text = some statements → text.length < bound →
      ∃ bs, readBlocks? bound text = some bs ∧ IsDocument bs ∧ blocksText bs = text
  | bound + 1, [], statements, _, _ => ⟨[], rfl, trivial, rfl⟩
  | bound + 1, c :: text, statements, h, hb => by
    obtain ⟨b, behind, ht, hbehind⟩ := takeBlock?_of_readLines? h
    obtain ⟨htext, hform, hfollow⟩ := formed_of_takeBlock? ht
    -- a block with a line end is not empty, and one without is all that is left
    have hne : b.text ≠ [] := by
      intro hn
      have hrest : b.rest = [] := by
        simp only [Block.text, List.append_eq_nil_iff] at hn
        exact hn.2.2
      rcases hfollow with hl | rfl
      · simp [hrest] at hl
      · simp [hn] at htext
    have hlen : behind.length < (c :: text).length := by
      have := List.length_pos_of_ne_nil hne
      rw [htext, List.length_append]
      omega
    obtain ⟨bs, hbs, hdoc, hbtext⟩ : ∃ bs, readBlocks? bound behind = some bs ∧ IsDocument bs
        ∧ blocksText bs = behind := by
      rcases hbehind with rfl | ⟨others, ho⟩
      · obtain ⟨n, rfl⟩ : ∃ n, bound = n + 1 := ⟨bound - 1, by simp at hb; omega⟩
        exact ⟨[], rfl, trivial, rfl⟩
      · exact exists_blocks ho (by omega)
    refine ⟨b :: bs, ?_, ⟨hform, hne, by rwa [hbtext], hdoc⟩,
      by rw [blocksText_cons, hbtext, htext]⟩
    rw [readBlocks?, ht, Option.bind_some]
    simp only [hbs, Option.map_some]

/-- A document has no more blocks than characters. -/
theorem length_le_blocksText : ∀ {bs : List Block}, IsDocument bs →
    bs.length ≤ (blocksText bs).length
  | [], _ => Nat.le_refl 0
  | b :: bs, h => by
    have ih := length_le_blocksText h.2.2.2
    have := List.length_pos_of_ne_nil h.2.1
    rw [blocksText_cons, List.length_append, List.length_cons]
    omega

end TomlKeep
