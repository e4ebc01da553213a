/-
# One line, read twice

A line is classified on its own, and a document of that one line is read by the grammar.  Both
find the same: a blank line, a header with the same path and the same brackets, or an entry with
the same key (`SeenAlike`).  There are exactly two exceptions (`seenAlike_line_iff`):

* a key or a path has an escape in double quotes that the grammar knows and the path reader does
  not (`sharedEscapes`), so that they read other names;
* a byte order mark stands in front of a statement: for the classifier it is part of the first
  key, and a header behind it is not found.

Without a mark the kind of the line and the brackets of a header are always found (`SameKind`).
-/
import TomlKeep.Proofs.Locating

namespace TomlKeep

open Text Toml

/-! ## 1. Documents of one line

What the grammar cuts into blocks is cut into lines here, and one line is at most one block.  Its
rest ends with the line, so what is left behind a value is a gap and a comment.
-/

/-- A document without a line feed has at most one block. -/
theorem IsDocument.length_le_one {bs : List Block} (h : IsDocument bs) (hn : '\n' ∉ blocksText bs) :
    bs.length ≤ 1 := by
  cases bs with
  | nil => exact Nat.zero_le 1
  | cons b bs =>
    obtain ⟨-, -, hfollow, hrest⟩ := h
    rcases hfollow with hlast | hnil
    · have hfeed : '\n' ∈ b.rest := List.mem_of_mem_getLast? hlast
      exact absurd (by simp [Block.text, hfeed]) hn
    -- behind a block that does not end in a line feed there is nothing
    · cases bs with
      | nil => exact Nat.le_refl 1
      | cons b' bs =>
        obtain ⟨-, hne, -⟩ := hrest
        rw [blocksText_cons, List.append_eq_nil_iff] at hnil
        exact absurd hnil.1 hne

/-- The rest of a line without its end. -/
theorem LineRest.exists_tail {rest : List Char} (h : LineRest rest) (hn : '\n' ∉ rest) :
    ∃ gap comment, rest = gap ++ comment ∧ IsTail gap comment := by
  obtain ⟨gap, comment, ending, rfl, ht, -⟩ := h.shape
  cases ending with
  | none => exact ⟨gap, comment, List.append_nil _, ht⟩
  | lf | crlf => simp [LineEnd.chars] at hn

/-! ## 2. Lines without a mark

A block is blank, a header or an entry, and the classifier is known to find each of them; what is
left to compare is the names.
-/

/-- What the grammar and the classifier see is of the same kind. -/
inductive SameKind : Option Statement → Head → Prop where
  | blank : SameKind none .other
  | header (parts : List String) (h : Header) : SameKind (some (.header parts h.array)) (.header h)
  | entry (parts : List String) (key : KeyPath) (term : Term) :
      SameKind (some (.entry parts term)) (.key key)

/-- A header is seen alike if its path is. -/
theorem seenAlike_header_iff {path : List String} {heading : Header} :
    SeenAlike (some (.header path heading.array)) (.header heading)
      ↔ heading.path.parts = path := by
  constructor
  · intro h
    generalize hs : some (Statement.header path heading.array) = statement at h
    cases h
    exact (Statement.header.inj (Option.some.inj hs)).1.symm
  · intro h
    subst h
    exact .header heading

/-- An entry is seen alike if its key is; its value is cut out of the line by one reader and read
by the other, and not compared here. -/
theorem seenAlike_entry_iff {path : List String} {term : Term} {key : KeyPath} :
    SeenAlike (some (.entry path term)) (.key key) ↔ key.parts = path := by
  constructor
  · intro h
    cases h
    rfl
  · intro h
    subst h
    exact .entry key term

/-- **A block of one line** is classified as a line of its kind, and with the names that the
grammar reads if and only if its escapes are shared. -/
theorem Block.Formed.seenAlike_iff {b : Block} (h : b.Formed) (hn : '\n' ∉ b.text) :
    SameKind b.statement? (classify b.text).head
      ∧ (SeenAlike b.statement? (classify b.text).head ↔ sharedEscapes .outside b.lead = true) := by
  -- by the form of the block
  cases h with
  | @blank rest hr =>
    obtain ⟨gap, comment, rfl, ht⟩ := hr.exists_tail (by simpa [Block.text] using hn)
    rw [Block.text, List.nil_append, List.nil_append, classify_tail ht]
    exact ⟨.blank, iff_of_true .blank rfl⟩
  | @header lead rest path heading hl hr _ =>
    obtain ⟨gap, comment, rfl, ht⟩ := hr.exists_tail (by
      intro hm
      exact hn (by simp [Block.text, hm]))
    have hk : classify (Block.text ⟨lead, [], gap ++ comment, some (.header path heading.array)⟩)
        = .header heading := hl.classify gap comment ht
    rw [hk]
    exact ⟨.header path heading, seenAlike_header_iff.trans hl.agree⟩
  | @entry lead value rest path term key hl hr hv =>
    have hk := classify_lead_append hl.isLead (hv.head_append rest)
    rw [Block.text, hk]
    exact ⟨.entry path key term, seenAlike_entry_iff.trans hl.agree⟩

/-- A line without a statement has no escapes. -/
theorem Block.Formed.shared_of_statement?_eq_none {b : Block} (h : b.Formed)
    (hs : b.statement? = none) : sharedEscapes .outside b.lead = true := by
  cases h with
  | blank => rfl
  | header | entry => cases hs

/-! ## 3. Lines with a mark

The grammar drops a mark at the start of a document, and a line has nowhere to drop it.  There it is
an ordinary character of the first key, where it stands bare, so a quote behind it is a fault and a
bracket behind it opens no header.
-/

/-- A quote behind the first character of a key is a fault, with gaps in front of it or without. -/
theorem segments_bare_quote {quote : Char} (hq : quote = '"' ∨ quote = '\'') (rest : List Char)
    {gap : List Char} (hg : IsGapText gap) :
    segments .bare (gap ++ quote :: rest) = .error .quoteInside := by
  have hdot : quote ≠ '.' := by rcases hq with rfl | rfl <;> decide
  have hbehind {gap : List Char} (hg : IsGapText gap) :
      segments .behind (gap ++ quote :: rest) = .error .quoteInside := by
    rw [segments_behind_blanks _ hg.isBlank, segments, if_neg hdot, if_pos hq]
  cases gap with
  | nil => rw [List.nil_append, segments, if_neg hdot, if_pos hq]
  | cons c gap =>
    obtain ⟨hc, hgap⟩ := List.forall_mem_cons.mp hg
    obtain ⟨h1, h2, h3, h4⟩ := IsGapText.not_quote hc
    rw [List.cons_append, segments, if_neg h1, if_neg (by simp [h2, h3]), if_pos h4, hbehind hgap]
    rfl

/-- **Behind a mark the first part of a key begins with the mark,** and no quote follows.  The
names are compared by their first character: the mark is one that no bare key of the grammar has. -/
theorem IsLead.of_mark {key : KeyPath} {lead body gap more : List Char} {c : Char}
    (h : IsLead key (byteOrderMark :: lead)) (htext : lead ++ body = gap ++ c :: more)
    (hg : IsGapText gap) (hc : c ≠ '=') : (c ≠ '"' ∧ c ≠ '\'')
      ∧ ∃ tail parts, key.parts = String.ofList (byteOrderMark :: tail) :: parts := by
  obtain ⟨left, behind, hlead, -, -, hkey, -⟩ := h
  -- the mark and the character belong to the left side
  obtain ⟨between, rfl⟩ : ∃ between, left = byteOrderMark :: (gap ++ c :: between) := by
    cases left with
    | nil =>
      have hmark := (List.cons.inj hlead).1
      exact absurd hmark (by decide)
    | cons d left =>
      have hsame : lead = left ++ '=' :: behind := (List.cons.inj hlead).2
      obtain rfl := (List.cons.inj hlead).1
      rw [hsame, List.append_assoc, List.cons_append] at htext
      rcases List.append_eq_append_iff.mp htext with ⟨end', hgap, hmore⟩ | ⟨end', hleft, hmore⟩
      · cases end' with
        | nil => exact absurd (List.cons.inj hmore).1.symm hc
        | cons e end' =>
          obtain ⟨rfl, -⟩ := List.cons.inj hmore
          have hequals := hg '=' (by simp [hgap])
          exact absurd hequals (by decide)
      · cases end' with
        | nil => exact absurd (List.cons.inj hmore).1 hc
        | cons e end' =>
          obtain ⟨rfl, -⟩ := List.cons.inj hmore
          exact ⟨end', by rw [hleft]⟩
  -- the mark is no blank, so it is not trimmed off the key
  have hmark : isBlank byteOrderMark = false := by decide
  have hparse (text : List Char) : segments .first (byteOrderMark :: text)
      = (segments .bare text).map (pushHead byteOrderMark) := by
    simp [segments, byteOrderMark, isBlank]
  have htrim : trim (byteOrderMark :: (gap ++ c :: between))
      = byteOrderMark :: dropEnd isBlank (gap ++ c :: between) := by
    have hstart : trimStart (byteOrderMark :: (gap ++ c :: between))
        = byteOrderMark :: (gap ++ c :: between) := by simp [trimStart, hmark]
    rw [trim, hstart, trimEnd]
    exact dropEnd_append_cons hmark (gap ++ c :: between) []
  rw [htrim, KeyPath.parse, hparse] at hkey
  constructor
  · rw [← not_or]
    intro hq
    have hblank : isBlank c = false := by rcases hq with rfl | rfl <;> decide
    rw [dropEnd_append_cons hblank, segments_bare_quote hq _ hg] at hkey
    cases hkey
  · cases hs : segments .bare (dropEnd isBlank (gap ++ c :: between)) with
    | error fault =>
      rw [hs] at hkey
      cases hkey
    | ok parts =>
      rw [hs] at hkey
      obtain rfl := Except.ok.inj hkey
      cases parts with
      | nil => exact ⟨[], [], rfl⟩
      | cons part parts => exact ⟨part, parts.map String.ofList, rfl⟩

/-- A path that begins with neither a gap nor a quote has a bare first part. -/
theorem exists_head_of_takeKey? {bound : Nat} {c : Char} {text rest : List Char}
    {path : List String} (h : takeKey? bound (c :: text) = some (path, rest)) (hc : isGap c = false)
    (hq : c ≠ '"' ∧ c ≠ '\'') :
    isBareKeyChar c = true ∧ ∃ tail parts, path = String.ofList (c :: tail) :: parts := by
  cases bound with
  | zero => cases h
  | succ bound =>
    have hdrop : (c :: text).dropWhile isGap = c :: text := by simp [hc]
    rw [takeKey?_succ, hdrop] at h
    obtain ⟨⟨part, behind⟩, hpart, h⟩ := Option.bind_eq_some_iff.mp h
    -- no quote, so what is taken is a bare key
    have hquoted : startsIn (fun c => c == '"' || c == '\'') (c :: text) = false := by
      simp [startsIn, hq]
    obtain ⟨hbare, tail, rfl⟩ : isBareKeyChar c = true
      ∧ ∃ tail, part = String.ofList (c :: tail) := by
      rw [takeSimpleKey?, hquoted, if_neg Bool.false_ne_true] at hpart
      obtain ⟨hne, he⟩ := Option.ite_none_left_eq_some.mp hpart
      have hbare : isBareKeyChar c = true := by
        rw [← Bool.not_eq_false]
        intro hn
        simp [hn] at hne
      rw [List.takeWhile_cons, if_pos hbare] at he
      exact ⟨hbare, _, ((Prod.mk.inj (Option.some.inj he)).1).symm⟩
    refine ⟨hbare, tail, ?_⟩
    simp only at h
    split at h
    · obtain ⟨⟨parts, more⟩, -, he⟩ := Option.map_eq_some_iff.mp h
      exact ⟨parts, ((Prod.mk.inj he).1).symm⟩
    · exact ⟨[], ((Prod.mk.inj (Option.some.inj h)).1).symm⟩

/-- An entry begins with its key, as the grammar takes it. -/
theorem exists_takeKey?_of_entry {text behind : List Char} {path : List String} {term : Term}
    (h : takeStatement? text = some (.entry path term, behind)) :
    ∃ rest, takeKey? maxKeyParts text = some (path, rest) := by
  unfold takeStatement? at h
  split at h
  · next hs =>
    obtain ⟨array, path', -, -, -, -, he, -⟩ := exists_header hs h
    cases he
  · obtain ⟨⟨⟨path', term'⟩, behind'⟩, hb, he⟩ := Option.map_eq_some_iff.mp h
    obtain ⟨hstatement, -⟩ := Prod.mk.inj he
    obtain ⟨rfl, -⟩ := Statement.entry.inj hstatement
    rw [takeBinding?_eq] at hb
    obtain ⟨⟨path', rest⟩, hk, hb⟩ := Option.bind_eq_some_iff.mp hb
    obtain ⟨between, -, hb⟩ := Option.bind_eq_some_iff.mp hb
    split at hb
    · obtain ⟨body, -, hb⟩ := Option.bind_eq_some_iff.mp hb
      obtain ⟨taken, -, he⟩ := Option.map_eq_some_iff.mp hb
      obtain ⟨hbinding, -⟩ := Prod.mk.inj he
      obtain ⟨rfl, -⟩ := Prod.mk.inj hbinding
      exact ⟨rest, hk⟩
    · cases hb

/-- Where no assignment is found behind a mark, nothing is found: a header would have to begin
with its bracket. -/
theorem head_mark {content : List Char} (h : isAssignment (byteOrderMark :: content) = false) :
    (classify (byteOrderMark :: content)).head = .other := by
  have hno := isAssignment_eq_false h
  rw [classify_mark] at hno ⊢
  cases hof : Assignment.ofLine? (byteOrderMark :: content) with
  | none => rfl
  | some a =>
    rw [hof] at hno
    exact absurd rfl (hno a)

/-- **A statement behind a mark is never seen alike.** -/
theorem Block.Formed.seenAlike_mark_iff {b : Block} (h : b.Formed) (hn : '\n' ∉ b.text) :
    SeenAlike b.statement? (classify (byteOrderMark :: b.text)).head ↔ b.statement? = none := by
  have hnothing {statement : Statement} : ¬ SeenAlike (some statement) .other := by
    intro hs
    cases hs
  cases h with
  | @blank rest hr =>
    obtain ⟨gap, comment, rfl, ht⟩ := hr.exists_tail (by simpa [Block.text] using hn)
    have hgap : Outside (fun c => !isKeyEnd c) gap :=
      IsGapText.outside ht.gap (by decide) (by decide)
    rw [Block.text, List.nil_append, List.nil_append, head_mark (isAssignment_mark hgap ht.comment)]
    exact iff_of_true .blank rfl
  | @header lead rest path heading hl hr _ =>
    obtain ⟨gap, comment, rfl, ht⟩ := hr.exists_tail (by
      intro hm
      exact hn (by simp [Block.text, hm]))
    have hgap : Outside (fun c => !isKeyEnd c) gap :=
      IsGapText.outside ht.gap (by decide) (by decide)
    have hfront := isAssignment_mark (hl.noKeyEnd.append hgap) ht.comment
    rw [Block.text, List.nil_append, ← List.append_assoc, head_mark hfront]
    exact iff_of_false hnothing (Option.some_ne_none _)
  | @entry lead value rest path term key hl hr hv =>
    refine iff_of_false ?_ (Option.some_ne_none _)
    have hstart : ∀ c, (value ++ rest).head? = some c → isGap c = false := hv.head_append rest
    -- behind the mark there is another key, one that begins with it, or no assignment at all
    rcases hl.toLineLead.mark with ⟨other, hl'⟩ | hno
    · have hk := classify_lead_append hl'.isLead hstart
      obtain ⟨c, more, hdrop, -, htake⟩ := hl.taken (value ++ rest) hstart
      have hterm := hv.taken [] (mayFollow_nil rest)
      rw [List.append_nil] at hterm
      rw [hterm, Option.map_some] at htake
      obtain ⟨behind, hkey⟩ := exists_takeKey?_of_entry htake
      obtain ⟨gap, hg, htext⟩ := exists_gap (lead ++ (value ++ rest))
      have hgap := List.head?_dropWhile_not isGap (lead ++ (value ++ rest))
      rw [hdrop] at htext hgap
      have hc : isGap c = false := by simpa using hgap
      have hequals : c ≠ '=' := by
        rintro rfl
        have hbare := (exists_head_of_takeKey? hkey hc (by decide)).1
        exact absurd hbare (by decide)
      obtain ⟨hq, tail, parts, hmarked⟩ := hl'.isLead.of_mark htext hg hequals
      obtain ⟨hbare, tail', parts', hpath⟩ := exists_head_of_takeKey? hkey hc hq
      rw [Block.text, ← List.cons_append, hk]
      intro hs
      have hparts := seenAlike_entry_iff.mp hs
      rw [hmarked, hpath, List.cons.injEq, String.ofList_inj, List.cons.injEq] at hparts
      obtain ⟨⟨rfl, -⟩, -⟩ := hparts
      exact absurd hbare (by decide)
    · have hnone := head_mark (hno (value ++ rest))
      rw [Block.text, hnone]
      exact hnothing

/-! ## 4. The two readers of a line

A line that the strict reader accepts is a document of one block at most, and all that is left is to
put the two cases together, with a mark and without.
-/

/-- **A line is classified as the grammar reads it,** with the same key or the same path and
brackets, if and only if it has no statement, or no byte order mark stands in front of it and its
escapes are shared.  Without the mark its kind is the same in any case. -/
theorem seenAlike_line_iff {line : List Char} {tree : Value} (hn : '\n' ∉ line)
    (h : readStrict line = .ok tree) : ∃ bs, blocks? (withoutMark line) = some bs ∧ bs.length ≤ 1
      ∧ readStatements? line = some (bs.filterMap Block.statement?)
      ∧ ∀ b ∈ bs,
        (startsIn (· == byteOrderMark) line = false → SameKind b.statement? (classify line).head)
        ∧ (SeenAlike b.statement? (classify line).head ↔ b.statement? = none
          ∨ startsIn (· == byteOrderMark) line = false ∧ sharedEscapes .outside b.lead = true) := by
  obtain ⟨bs, hbs, hdoc, htext⟩ := exists_document h
  have hline := eq_withoutMark line
  have hfeed : '\n' ∉ withoutMark line := by
    intro hm
    rw [hline] at hn
    cases hmark : startsIn (· == byteOrderMark) line with
    | true => simp [hmark, hm] at hn
    | false => simp [hmark, hm] at hn
  have hlength := hdoc.length_le_one (htext ▸ hfeed)
  have hread : readStatements? line = some (bs.filterMap Block.statement?) := by
    have hbound := Nat.lt_succ_of_le (length_le_blocksText hdoc)
    have hlines := readLines?_blocksText hdoc hbound
    rw [htext] at hlines
    exact hlines
  refine ⟨bs, hbs, hlength, hread, ?_⟩
  intro b hb
  -- the block is all of the line
  obtain rfl : bs = [b] := by
    cases bs with
    | nil => cases hb
    | cons b' bs =>
      obtain rfl : bs = [] := List.length_eq_zero_iff.mp (by simpa using hlength)
      rw [List.mem_singleton.mp hb]
  -- with a mark only a blank block is seen alike, and without one the escapes decide
  have hform := hdoc.1
  rw [blocksText_cons, blocksText_nil, List.append_nil] at htext
  rw [← htext] at hline hfeed
  cases hmark : startsIn (· == byteOrderMark) line with
  | true =>
    rw [hmark, if_pos rfl] at hline
    refine ⟨(fun hno => absurd hno (by decide)), ?_⟩
    rw [hline, hform.seenAlike_mark_iff hfeed]
    simp
  | false =>
    rw [hmark, if_neg Bool.false_ne_true] at hline
    obtain ⟨hkind, halike⟩ := hform.seenAlike_iff hfeed
    rw [hline]
    refine ⟨fun _ => hkind, halike.trans ?_⟩
    constructor
    · intro hshared
      exact .inr ⟨rfl, hshared⟩
    · rintro (hnone | ⟨-, hshared⟩)
      · exact hform.shared_of_statement?_eq_none hnone
      · exact hshared

/-- A dotted key in double quotes with an escape that both readers know. -/
theorem seenAlike_line_iff_quoted :
    let line := ['"', 'a', '\\', 't', '"', '.', 'b', ' ', '=', ' ', '1']
    '\n' ∉ line ∧ readStrict line = .ok (.table [("a\t", .table [("b", .integer 1)])])
      ∧ SeenAlike (some (.entry ["a\t", "b"] (.leaf (.integer 1)))) (classify line).head := by
  intro line
  have hfeed : '\n' ∉ line := by decide
  have hread : readStrict line = .ok (.table [("a\t", .table [("b", .integer 1)])]) := by rfl
  refine ⟨hfeed, hread, ?_⟩
  obtain ⟨bs, hbs, -, -, hall⟩ := seenAlike_line_iff hfeed hread
  obtain ⟨b, hb, hstatement, hshared⟩ : ∃ b, blocks? line = some [b]
      ∧ b.statement? = some (.entry ["a\t", "b"] (.leaf (.integer 1)))
      ∧ sharedEscapes .outside b.lead = true := ⟨_, rfl, rfl, by decide⟩
  obtain rfl : bs = [b] := Option.some.inj (hbs.symm.trans hb)
  rw [← hstatement]
  exact (hall b (by simp)).2.mpr (.inr ⟨rfl, hshared⟩)

/-- The escape of a code point is known to the grammar only: the line is read as an entry of `a` and
classified as an assignment of `u0061`.  A header behind a byte order mark is not found. -/
theorem classify_escaped_key :
    let line := ['"', '\\', 'u', '0', '0', '6', '1', '"', ' ', '=', ' ', '1']
    let marked := [byteOrderMark, '[', 'a', ']']
    readStrict line = .ok (.table [("a", .integer 1)])
      ∧ classify line = .assignment {
          key := ⟨["u0061"]⟩
          lead := ['"', '\\', 'u', '0', '0', '6', '1', '"', ' ', '=', ' ']
          value := ['1']
          gap := []
          comment := [] }
      ∧ readStrict marked = .ok (.table [("a", .table [])]) ∧ classify marked = .other := by
  exact ⟨by rfl, by rfl, by rfl, by rfl⟩

end TomlKeep
