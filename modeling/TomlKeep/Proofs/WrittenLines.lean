/-
# A written document is read line by line

The text of a document is the lines of its plain entries and, behind them, its sections with a
blank line in front of each.  Every such piece is read as its statements, whatever stands behind
it (`ReadsAs`), so pieces may be put together (`ReadsAs.append`, `readsAs_intercalate`), and the
text of a whole document is read as its statements (`readStatements?_renderTable`).
-/
import TomlKeep.Proofs.WrittenTerms
import TomlKeep.Toml.Render

namespace TomlKeep.Toml

open Text

/-! ## 1. Reading piece by piece

The reader of lines takes one round for each line and has as many rounds as the text has characters,
and one more.  A piece that is read in some rounds leaves the others to what stands behind it; since
no piece needs more rounds than characters, the bound is never reached.
-/

/-- **A text is read as statements,** whatever stands behind it; the reader does no more rounds
than the text has characters. -/
def ReadsAs (text : List Char) (statements : List Statement) : Prop :=
  ∃ rounds ≤ text.length, ∀ bound behind,
    readLines? (rounds + bound) (text ++ behind) = (readLines? bound behind).map (statements ++ ·)

/-- Nothing is read as no statements. -/
theorem readsAs_nil : ReadsAs [] [] := by
  refine ⟨0, Nat.le_refl 0, ?_⟩
  intro bound behind
  simp

/-- **Pieces may be put together,** and so may their statements. -/
theorem ReadsAs.append {a b : List Char} {as bs : List Statement} (ha : ReadsAs a as)
    (hb : ReadsAs b bs) : ReadsAs (a ++ b) (as ++ bs) := by
  obtain ⟨m, hm, ha⟩ := ha
  obtain ⟨n, hn, hb⟩ := hb
  refine ⟨m + n, by simp only [List.length_append]; omega, ?_⟩
  intro bound behind
  rw [List.append_assoc, Nat.add_assoc, ha, hb, Option.map_map]
  congr 1
  funext statements
  simp

/-- A text that is read as statements is read as a document of them. -/
theorem ReadsAs.readLines? {text : List Char} {statements : List Statement}
    (h : ReadsAs text statements) :
    Toml.readLines? (text.length + 1) text = some statements := by
  obtain ⟨rounds, hr, h⟩ := h
  obtain ⟨more, hmore⟩ : ∃ more, text.length + 1 = rounds + (more + 1) :=
    ⟨text.length - rounds, by omega⟩
  have hnil : Toml.readLines? (more + 1) [] = some [] := rfl
  have := h (more + 1) []
  rw [List.append_nil, hnil, ← hmore] at this
  simpa using this

/-- An empty text has no statements. -/
theorem ReadsAs.eq_nil {statements : List Statement} (h : ReadsAs [] statements) :
    statements = [] :=
  (Option.some.inj h.readLines?).symm

/-- A line end is a blank line. -/
theorem readsAs_feed : ReadsAs ['\n'] [] := by
  refine ⟨1, Nat.le_refl 1, ?_⟩
  intro bound behind
  have hdrop : (['\n'] ++ behind).dropWhile isGap = '\n' :: behind := rfl
  have hskip : skipLine? false ('\n' :: behind) = some behind := by rw [skipLine?, if_pos rfl]
  rw [Nat.add_comm, Toml.readLines?, hdrop]
  simp [hskip]

/-- **A statement and a line end** are read as that statement. -/
theorem readsAs_statement {text : List Char} {statement : Statement} (hb : Begun text)
    (ht : ∀ behind, takeStatement? (text ++ '\n' :: behind) = some (statement, '\n' :: behind)) :
    ReadsAs (text ++ ['\n']) [statement] := by
  refine ⟨1, by simp, ?_⟩
  intro bound behind
  obtain ⟨c, more, rfl, hg, hn, hr, hh, -⟩ := hb
  have htext : c :: more ++ ['\n'] ++ behind = c :: (more ++ '\n' :: behind) := by simp
  have hdrop : (c :: (more ++ '\n' :: behind)).dropWhile isGap = c :: (more ++ '\n' :: behind) :=
    List.dropWhile_cons_of_neg (by simp [hg])
  have htake : takeStatement? (c :: (more ++ '\n' :: behind)) = some (statement, '\n' :: behind) :=
    ht behind
  -- behind the statement its line ends
  have hskip : skipLine? false ('\n' :: behind) = some behind := by rw [skipLine?, if_pos rfl]
  have hc : ¬ (c = '\n' ∨ c = '\r' ∨ c = '#') := by simp [hn, hr, hh]
  rw [Nat.add_comm, htext, Toml.readLines?, hdrop]
  simp only [if_neg hc, htake, hskip, List.singleton_append]

/-- **Texts with a line end between them** are read as the statements of all of them; the empty
ones may be left out, since they have no statements. -/
theorem readsAs_intercalate {texts : List (List Char)} {sections : List (List Statement)}
    (h : List.Forall₂ ReadsAs texts sections) :
    ReadsAs (['\n'].intercalate (texts.filter (!·.isEmpty))) sections.flatten := by
  induction h with
  | nil => exact readsAs_nil
  | @cons text statements texts sections ht _ ih =>
    rw [List.flatten_cons]
    -- an empty text is left out; any other one stands last or in front of a line end
    cases text with
    | nil =>
      rw [ht.eq_nil]
      exact ih
    | cons c text =>
      rw [List.filter_cons_of_pos (by simp)]
      cases hrest : texts.filter (!·.isEmpty) with
      | nil =>
        rw [hrest] at ih
        have hone : ['\n'].intercalate [c :: text] = c :: text := by simp [List.intercalate]
        have hnil : sections.flatten = [] := ih.eq_nil
        rw [hone, hnil, List.append_nil]
        exact ht
      | cons next more =>
        rw [hrest] at ih
        rw [List.intercalate_cons_cons, List.append_assoc]
        exact ht.append (readsAs_feed.append ih)

/-! ## 2. Entries

The plain entries of a table stand first, each on its own line.  Their values are those on one line
of the module before; the line is a key and such a value.
-/

/-- **The line of an entry** is read as that entry. -/
theorem readsAs_line {w : WrittenEntry} {e : String × Value} (h : w.Represents maxNesting e) :
    ReadsAs (w.line ++ ['\n']) [.entry [w.key] w.term] := by
  obtain ⟨-, -, hbegun, htake⟩ := h
  have hline : Begun w.line := by
    rw [WrittenEntry.line, List.append_assoc]
    exact (begun_writeKey w.key).append _
  refine readsAs_statement hline ?_
  intro behind
  have hskip : skipGap? (' ' :: (w.text ++ '\n' :: behind)) = some (w.text ++ '\n' :: behind) := by
    have hdrop : (w.text ++ '\n' :: behind).dropWhile isGap = w.text ++ '\n' :: behind := by
      obtain ⟨c, more, hc, hg, -⟩ := hbegun
      rw [hc, List.cons_append, List.dropWhile_cons_of_neg (by simp [hg])]
    exact congrArg some hdrop
  have hequals (more : List Char) : skipGap? ('=' :: more) = some ('=' :: more) := rfl
  have htext : w.line ++ '\n' :: behind
      = writeKey w.key ++ ([' ', '=', ' '] ++ (w.text ++ '\n' :: behind)) := by
    simp [WrittenEntry.line]
  -- a key begins with no bracket, so the line is no header
  have hbracket : startsIn (· == '[') (w.line ++ '\n' :: behind) = false := by
    obtain ⟨c, more, hc, hkey⟩ := exists_writeKey w.key
    have hne : c ≠ '[' := by
      rintro rfl
      revert hkey
      decide
    rw [htext, hc]
    simpa [startsIn] using hne
  rw [takeStatement?, hbracket, if_neg Bool.false_ne_true, htext,
    takeBinding?_written w.key hequals hskip, htake _ (endsValue_cons (.inl rfl) behind)]
  rfl

/-- The statements of the plain entries of a table. -/
def plainStatements (entries : Table) : List Statement :=
  (entryTerms (entries.filter fun e => !isSection e.2)).map fun e => .entry [e.1] e.2

/-- Some of the entries are as well keyed as all of them. -/
theorem wellKeyedEntries_filter {entries : Table} (h : WellKeyedEntries entries)
    (p : String × Value → Bool) : WellKeyedEntries (entries.filter p) := by
  rw [wellKeyedEntries_iff] at h ⊢
  intro key value hm
  exact h key value (List.mem_of_mem_filter hm)

/-- Some of the entries have no other scalars than all of them. -/
theorem scalarsEntries_filter {q : Value → Prop} {entries : Table} (h : ScalarsEntries q entries)
    (p : String × Value → Bool) : ScalarsEntries q (entries.filter p) := by
  rw [scalarsEntries_iff] at h ⊢
  intro key value hm
  exact h key value (List.mem_of_mem_filter hm)

/-- A table nests as deep as its deepest value. -/
theorem nestingEntries_le_iff {entries : Table} {n : Nat} :
    nestingEntries entries ≤ n ↔ ∀ key value, (key, value) ∈ entries → value.nesting ≤ n := by
  induction entries with
  | nil => simp [nestingEntries]
  | cons e rest ih =>
    obtain ⟨k, v⟩ := e
    rw [nestingEntries, Nat.max_le, ih, forall_entry_cons]

/-- **The plain entries of a table are read back** one by one.  They are some of its entries, so
all that is known of those holds of them. -/
theorem exists_plain_entries {entries : Table} (hk : WellKeyedEntries entries)
    (hs : ScalarsEntries Value.IsExact entries) (hn : nestingEntries entries ≤ maxNesting) :
    ∃ ws : List WrittenEntry,
      inlineEntries (entries.filter fun e => !isSection e.2) = ws.map WrittenEntry.line
        ∧ (ws.map fun w => (w.key, w.term)) = entryTerms (entries.filter fun e => !isSection e.2)
        ∧ List.Forall₂ (WrittenEntry.Represents maxNesting) ws
            (entriesWithoutNulls (entries.filter fun e => !isSection e.2)) := by
  have hnest : nestingEntries (entries.filter fun e => !isSection e.2) ≤ maxNesting := by
    rw [nestingEntries_le_iff] at hn ⊢
    intro key value hm
    exact hn key value (List.mem_of_mem_filter hm)
  exact exists_entries _ maxNesting (wellKeyedEntries_filter hk _) (scalarsEntries_filter hs _)
    hnest

/-- **The lines of the plain entries of a table.** -/
theorem readsAs_plainLines {entries : Table} (hk : WellKeyedEntries entries)
    (hs : ScalarsEntries Value.IsExact entries) (hn : nestingEntries entries ≤ maxNesting) :
    ReadsAs (plainLines entries) (plainStatements entries) := by
  obtain ⟨ws, hw, hterms, hentries⟩ := exists_plain_entries hk hs hn
  have hlines : ∀ w ∈ ws, ∃ e, w.Represents maxNesting e :=
    forall_of_forall₂ hentries fun _ e he => ⟨e, he⟩
  rw [plainLines, plainStatements, hw, ← hterms]
  clear hw hterms hentries
  induction ws with
  | nil => exact readsAs_nil
  | cons w ws ih =>
    obtain ⟨⟨e, he⟩, hws⟩ := List.forall_mem_cons.mp hlines
    exact (readsAs_line he).append (ih hws)

/-! ## 3. Headers

A header is a dotted key in brackets.  It is read if its key has no more parts than the reader
allows, and that is where the nesting of a document is bounded.
-/

/-- **A dotted key is read back,** part by part.  Behind it stands neither a gap nor a dot, or it
would go on. -/
theorem takeKey?_written {rest : List Char}
    (hb : ∀ c, rest.head? = some c → isBareKeyChar c = false)
    (hg : rest.dropWhile isGap = rest) (hd : startsIn (· == '.') rest = false) :
    ∀ {path : List String} {bound : Nat}, path ≠ [] → path.length ≤ bound →
      takeKey? bound (['.'].intercalate (path.map writeKey) ++ rest) = some (path, rest)
  | [], _, hne, _ => absurd rfl hne
  | _ :: _, 0, _, hn => absurd hn (by simp)
  -- the last part, behind which nothing goes on
  | [key], bound + 1, _, _ => by
    have hone : ['.'].intercalate ([key].map writeKey) = writeKey key := by simp [List.intercalate]
    have hdrop : (writeKey key ++ rest).dropWhile isGap = writeKey key ++ rest := by
      obtain ⟨c, more, hc, hgap, -⟩ := begun_writeKey key
      rw [hc, List.cons_append, List.dropWhile_cons_of_neg (by simp [hgap])]
    rw [hone, takeKey?_succ, hdrop, takeSimpleKey?_writeKey key hb, Option.bind_some]
    simp only [hg, hd, Bool.false_eq_true, if_false]
  -- a part with its dot, and the others by the induction
  | key :: key' :: path, bound + 1, _, hn => by
    have hmore : (key' :: path).length ≤ bound := Nat.le_of_succ_le_succ hn
    have ih := takeKey?_written hb hg hd (List.cons_ne_nil key' path) hmore
    have htext : ['.'].intercalate ((key :: key' :: path).map writeKey) ++ rest
        = writeKey key ++ '.' :: (['.'].intercalate ((key' :: path).map writeKey) ++ rest) := by
      simp [List.intercalate_cons_cons]
    generalize ['.'].intercalate ((key' :: path).map writeKey) ++ rest = more at ih htext
    have hdrop : (writeKey key ++ '.' :: more).dropWhile isGap = writeKey key ++ '.' :: more := by
      obtain ⟨c, tail, hc, hgap, -⟩ := begun_writeKey key
      rw [hc, List.cons_append, List.dropWhile_cons_of_neg (by simp [hgap])]
    have hbare : ∀ c, ('.' :: more).head? = some c → isBareKeyChar c = false := by
      intro c hc
      obtain rfl := Option.some.inj hc
      decide
    have hgap : ('.' :: more).dropWhile isGap = '.' :: more := rfl
    have hdot : startsIn (· == '.') ('.' :: more) = true := rfl
    rw [htext, takeKey?_succ, hdrop, takeSimpleKey?_writeKey key hbare, Option.bind_some]
    simp only [hgap, hdot, if_true, List.drop_one, List.tail_cons, ih, Option.map_some]

/-- **A header** is read as itself, with one bracket or with two. -/
theorem readsAs_writeHeader {path : List String} (hne : path ≠ []) (hn : path.length ≤ maxKeyParts)
    (array : Bool) : ReadsAs (writeHeader path array) [.header path array] := by
  have hkey (rest : List Char) : takeKey? maxKeyParts
      (['.'].intercalate (path.map writeKey) ++ ']' :: rest) = some (path, ']' :: rest) := by
    refine takeKey?_written ?_ rfl rfl hne hn
    intro c hc
    obtain rfl := Option.some.inj hc
    decide
  -- a key begins with no bracket, so a single one is not taken for two
  have hstart : ∃ c more, ['.'].intercalate (path.map writeKey) = c :: more ∧ c ≠ '[' := by
    obtain ⟨key, path, rfl⟩ := List.exists_cons_of_ne_nil hne
    obtain ⟨c, more, hc, hkey⟩ := exists_writeKey key
    have hbracket : c ≠ '[' := by
      rintro rfl
      revert hkey
      decide
    cases path with
    | nil => exact ⟨c, more, by simp [List.intercalate, hc], hbracket⟩
    | cons key' path =>
      refine ⟨c, more ++ ['.'] ++ ['.'].intercalate ((key' :: path).map writeKey), ?_, hbracket⟩
      rw [List.map_cons, List.map_cons, List.intercalate_cons_cons, hc]
      simp
  generalize hname : ['.'].intercalate (path.map writeKey) = name at hkey hstart
  have hbegun (text : List Char) : Begun ('[' :: text) :=
    ⟨'[', text, rfl, by decide, by decide, by decide, by decide, by decide, by decide⟩
  cases array with
  | true =>
    have htext : writeHeader path true = '[' :: '[' :: (name ++ [']', ']']) ++ ['\n'] := by
      simp [writeHeader, hname]
    rw [htext]
    refine readsAs_statement (hbegun _) ?_
    intro behind
    have hopen : after? ['[', '['] ('[' :: '[' :: (name ++ ']' :: ']' :: '\n' :: behind))
        = some (name ++ ']' :: ']' :: '\n' :: behind) := after?_eq_some_iff.mpr rfl
    have hbehind : '[' :: '[' :: (name ++ [']', ']']) ++ '\n' :: behind
        = '[' :: '[' :: (name ++ ']' :: ']' :: '\n' :: behind) := by simp
    have hbracket : startsIn (· == '[') ('[' :: '[' :: (name ++ ']' :: ']' :: '\n' :: behind))
        = true :=
      rfl
    rw [hbehind, takeStatement?, if_pos hbracket, takeHeader?, hopen]
    simp only [hkey]
  | false =>
    have htext : writeHeader path false = '[' :: (name ++ [']']) ++ ['\n'] := by
      simp [writeHeader, hname]
    rw [htext]
    refine readsAs_statement (hbegun _) ?_
    intro behind
    obtain ⟨c, more, hcons, hc⟩ := hstart
    have hopen : after? ['[', '['] ('[' :: (name ++ ']' :: '\n' :: behind)) = none := by
      rw [hcons]
      simp [after?, Ne.symm hc]
    have hbehind : '[' :: (name ++ [']']) ++ '\n' :: behind
        = '[' :: (name ++ ']' :: '\n' :: behind) := by
      simp
    have hbracket : startsIn (· == '[') ('[' :: (name ++ ']' :: '\n' :: behind)) = true := rfl
    rw [hbehind, takeStatement?, if_pos hbracket, takeHeader?, hopen]
    simp only [List.drop_one, List.tail_cons, hkey]

/-! ## 4. Sections

The sections of a document are listed depth first, each with its plain entries before its
sub-sections; so are the statements.  The two lists are compared along the recursion that makes
them.  Each level down adds one part to the path and takes one from the nesting, so their sum stays
below the bound.
-/

mutual

/-- The statements of the sections under a table, section by section. -/
def sectionStatements (path : List String) : List (String × Value) → List (List Statement)
  | [] => []
  | (key, .table entries) :: rest =>
    (.header (path ++ [key]) false :: plainStatements entries)
      :: sectionStatements (path ++ [key]) entries ++ sectionStatements path rest
  | (key, .array items) :: rest =>
    (if isSection (.array items) then elementStatements (path ++ [key]) items else [])
      ++ sectionStatements path rest
  | _ :: rest => sectionStatements path rest

/-- The statements of the sections of an array of tables. -/
def elementStatements (path : List String) : List Value → List (List Statement)
  | [] => []
  | .table entries :: rest =>
    (.header path true :: plainStatements entries)
      :: sectionStatements path entries ++ elementStatements path rest
  | _ :: rest => elementStatements path rest

end

/-- **A section without its sub-sections** is its header and its plain entries. -/
theorem readsAs_section {path : List String} {entries : Table} (hne : path ≠ []) (array : Bool)
    (hk : WellKeyedEntries entries) (hs : ScalarsEntries Value.IsExact entries)
    (hn : path.length + nestingEntries entries ≤ maxKeyParts) :
    ReadsAs (writeHeader path array ++ plainLines entries)
      (.header path array :: plainStatements entries) := by
  have hsame : maxKeyParts = maxNesting := rfl
  have hheader : ReadsAs (writeHeader path array) [.header path array] :=
    readsAs_writeHeader hne (by omega) array
  exact hheader.append (readsAs_plainLines hk hs (by omega))

mutual

/-- **The sections under a table are read one by one.** -/
theorem readsAs_sections : ∀ (entries : Table) (path : List String), WellKeyedEntries entries →
    ScalarsEntries Value.IsExact entries → path.length + nestingEntries entries ≤ maxKeyParts →
      List.Forall₂ ReadsAs (sections path entries) (sectionStatements path entries)
  | [], _, _, _, _ => by
    rw [sections, sectionStatements]
    exact .nil
  | (key, .table entries) :: rest, path, hk, hs, hn => by
    rw [nestingEntries, Value.nesting] at hn
    -- one part more in the path, one level less in the table
    have hinner : (path ++ [key]).length + nestingEntries entries ≤ maxKeyParts := by
      rw [List.length_append, List.length_singleton]
      omega
    have hhead := readsAs_section (by simp) false hk.1.2 hs.1 hinner
    have hsub := readsAs_sections entries (path ++ [key]) hk.1.2 hs.1 hinner
    have hrest := readsAs_sections rest path hk.2 hs.2 (by omega)
    rw [sections, sectionStatements]
    exact List.rel_append (.cons hhead hsub) hrest
  | (key, .array items) :: rest, path, hk, hs, hn => by
    rw [nestingEntries, Value.nesting] at hn
    have hrest := readsAs_sections rest path hk.2 hs.2 (by omega)
    rw [sections, sectionStatements]
    refine List.rel_append ?_ hrest
    split
    · refine readsAs_elementSections items (path ++ [key]) (by simp) hk.1 hs.1 ?_
      rw [List.length_append, List.length_singleton]
      omega
    · exact .nil
  | (_, .null) :: rest, path, hk, hs, hn | (_, .bool _) :: rest, path, hk, hs, hn
  | (_, .integer _) :: rest, path, hk, hs, hn | (_, .float _) :: rest, path, hk, hs, hn
  | (_, .string _) :: rest, path, hk, hs, hn | (_, .datetime _) :: rest, path, hk, hs, hn => by
    rw [nestingEntries] at hn
    simp only [sections, sectionStatements]
    exact readsAs_sections rest path hk.2 hs.2 (by omega)

/-- The sections of an array of tables are read one by one. -/
theorem readsAs_elementSections : ∀ (items : List Value) (path : List String), path ≠ [] →
    WellKeyedItems items → ScalarsItems Value.IsExact items →
      path.length + nestingItems items ≤ maxKeyParts + 1 →
        List.Forall₂ ReadsAs (elementSections path items) (elementStatements path items)
  | [], _, _, _, _, _ => by
    rw [elementSections, elementStatements]
    exact .nil
  | .table entries :: rest, path, hne, hk, hs, hn => by
    rw [nestingItems, Value.nesting] at hn
    have hinner : path.length + nestingEntries entries ≤ maxKeyParts := by omega
    have hhead := readsAs_section hne true hk.1.2 hs.1 hinner
    have hsub := readsAs_sections entries path hk.1.2 hs.1 hinner
    have hrest := readsAs_elementSections rest path hne hk.2 hs.2 (by omega)
    rw [elementSections, elementStatements]
    exact List.rel_append (.cons hhead hsub) hrest
  | .null :: rest, path, hne, hk, hs, hn | .bool _ :: rest, path, hne, hk, hs, hn
  | .integer _ :: rest, path, hne, hk, hs, hn | .float _ :: rest, path, hne, hk, hs, hn
  | .string _ :: rest, path, hne, hk, hs, hn | .datetime _ :: rest, path, hne, hk, hs, hn
  | .array _ :: rest, path, hne, hk, hs, hn => by
    rw [nestingItems] at hn
    simp only [elementSections, elementStatements]
    exact readsAs_elementSections rest path hne hk.2 hs.2 (by omega)

end

/-! ## 5. Documents

A document is the plain entries of its root and its sections, with a blank line between them.
-/

/-- The statements of a document with the given root table. -/
def documentStatements (entries : Table) : List Statement :=
  plainStatements entries ++ (sectionStatements [] entries).flatten

/-- A byte order mark begins neither a line nor a statement.  So a document that can be read
without dropping one does not begin with one. -/
theorem readLines?_mark (bound : Nat) (rest : List Char) :
    readLines? (bound + 1) ('\uFEFF' :: rest) = none := by
  have hdrop : ('\uFEFF' :: rest).dropWhile isGap = '\uFEFF' :: rest :=
    List.dropWhile_cons_of_neg (by decide)
  have hkey : takeSimpleKey? ('\uFEFF' :: rest) = none := by
    have hbare : isBareKeyChar '\uFEFF' = false := by decide
    simp [takeSimpleKey?, startsIn, hbare]
  have hbinding : takeBinding? skipGap? (takeTerm? maxNesting) ('\uFEFF' :: rest) = none := by
    rw [takeBinding?_eq, maxKeyParts, takeKey?_succ, hdrop, hkey]
    rfl
  have htake : takeStatement? ('\uFEFF' :: rest) = none := by
    have hbracket : startsIn (· == '[') ('\uFEFF' :: rest) = false := rfl
    rw [takeStatement?, hbracket, if_neg Bool.false_ne_true, hbinding]
    rfl
  rw [readLines?, hdrop]
  simp [htake]

/-- **A written document is read as its statements.** -/
theorem readStatements?_renderTable {entries : Table} (hk : WellKeyedEntries entries)
    (hs : ScalarsEntries Value.IsExact entries) (hn : nestingEntries entries ≤ maxNesting) :
    readStatements? (renderTable entries) = some (documentStatements entries) := by
  have hsections : List.Forall₂ ReadsAs (sections [] entries) (sectionStatements [] entries) :=
    readsAs_sections entries [] hk hs (by rw [List.length_nil, Nat.zero_add]; exact hn)
  have hreads : ReadsAs (renderTable entries) (documentStatements entries) :=
    readsAs_intercalate (.cons (readsAs_plainLines hk hs hn) hsections)
  have hread := hreads.readLines?
  have hmark : startsIn (· == '\uFEFF') (renderTable entries) = false := by
    cases htext : renderTable entries with
    | nil => rfl
    | cons c rest =>
      rw [startsIn, beq_eq_false_iff_ne]
      rintro rfl
      rw [htext, readLines?_mark] at hread
      cases hread
  rw [readStatements?, hmark]
  exact hread

end TomlKeep.Toml
