/-
# The values of entries are literals

Whether a word is a literal is a matter of its spelling: it opens a string or a bracket, it is a
truth value, or it has the pattern of a number or of a date-time (`Pattern.literal`).  A bare
word is a word that is no literal (`isBareWord_eq_true_iff`).

The value of an entry that can be read is a literal, so it is never taken for a bare word
(`isBareWord_of_readStrict`).  The line reader cuts the value out of its line, without the gaps
around it and without a carriage return at the end of the line; the word is the same, because
blanks at the ends of a word do not count (`trim_blanks`).
-/
import TomlKeep.Proofs.LiteralPatterns

namespace TomlKeep

open Text Toml Computability

/-! ## 1. Bare words

The test for bare words asks the readers of numbers and of date-times, so it is a pattern as well.
-/

/-- **The literals of TOML,** as far as their spelling or their first character shows it. -/
def Pattern.literal : Language Char :=
  oneOf Assignment.isQuotedStart * ⊤ + {boolText true} + {boolText false} + number + datetime

/-- A text that begins with a character of the class, whatever follows it. -/
theorem Pattern.mem_oneOf_mul_top {p : Char → Bool} {text : List Char} :
    text ∈ oneOf p * ⊤ ↔ startsIn p text = true := by
  rw [mem_oneOf_mul]
  cases text with
  | nil => simp [startsIn]
  | cons c rest =>
    constructor
    · rintro ⟨d, hd, _, -, he⟩
      rw [(List.cons.inj he).1]
      exact hd
    · intro hc
      exact ⟨c, hc, rest, trivial, rfl⟩

/-- **A bare word is a word that is no literal.** -/
theorem isBareWord_eq_true_iff {value : List Char} :
    isBareWord value = true ↔ trim value ≠ [] ∧ trim value ∉ Pattern.literal := by
  have hliteral : trim value ∈ Pattern.literal
      ↔ startsIn Assignment.isQuotedStart (trim value) = true
      ∨ trim value = boolText true ∨ trim value = boolText false
      ∨ (Numeral.read? (trim value)).isSome = true
      ∨ (Datetime.read? (trim value)).isSome = true := by
    rw [Numeral.isSome_read?_iff, Datetime.isSome_read?_iff, ← Pattern.mem_oneOf_mul_top]
    simp only [Pattern.literal, Language.mem_add, or_assoc]
    exact Iff.rfl
  rw [hliteral, isBareWord]
  simp only [Bool.not_eq_true', Bool.or_eq_false_iff, List.isEmpty_eq_false_iff,
    beq_eq_false_iff_ne, not_or, Bool.not_eq_true, and_assoc]

/-- A word that is spelled like a literal has the pattern of one. -/
theorem mem_literal_of_isLiteralWord {value : List Char} (h : IsLiteralWord value) :
    trim value ∈ Pattern.literal := by
  -- otherwise it would be a bare word
  by_contra hno
  have hbare := isBareWord_eq_true_iff.mpr ⟨h.1, hno⟩
  rw [h.2] at hbare
  cases hbare

/-! ## 2. Values in their lines

The line reader keeps gaps and comments apart from the value.  The two cuts are at the ends of the
word, where only blanks are, and a test that trims the word first does not see them.
-/

/-- The test looks at the word without the blanks around it. -/
theorem isBareWord_congr {a b : List Char} (h : trim a = trim b) : isBareWord a = isBareWord b := by
  rw [isBareWord, isBareWord, h]

/-- **A line with a key and a word,** gaps around the word and a comment behind it. -/
theorem IsKey.classify_word {key word comment : List Char} {names : List (List Char)}
    (hk : IsKey key names) (hc : ∀ c, comment.head? = some c → c = '#')
    (hs : Assignment.splitComment (word.dropWhile isGap ++ comment)
      = (word.dropWhile isGap, comment)) :
    classify (key ++ [' ', '=', ' '] ++ word ++ comment) = .assignment {
      key := ⟨names.map String.ofList⟩
      lead := key ++ [' ', '=', ' '] ++ word.takeWhile isGap
      value := dropEnd isGap (word.dropWhile isGap)
      gap := takeEnd isGap (word.dropWhile isGap)
      comment } := by
  have hspace : IsGapText [' '] := by decide
  have hgap : IsGapText (word.takeWhile isGap) := fun _ hm => forall_takeWhile hm
  have hlead := hk.isLead (List.forall_mem_nil _) hspace (hspace.append hgap)
  have htext : [] ++ (key ++ [' ']) ++ '=' :: ([' '] ++ word.takeWhile isGap)
      = key ++ [' ', '=', ' '] ++ word.takeWhile isGap := by simp
  rw [htext] at hlead
  -- what follows the equals sign and its gap is the word, or the comment if the word is blank
  have hstart : ∀ c, (word.dropWhile isGap ++ comment).head? = some c → isGap c = false := by
    intro c hhead
    cases hword : word.dropWhile isGap with
    | nil =>
      rw [hword] at hhead
      rw [hc c hhead]
      rfl
    | cons d rest =>
      have hfirst := List.head?_dropWhile_not isGap word
      rw [hword] at hhead hfirst
      obtain rfl := Option.some.inj hhead
      simpa using hfirst
  have hclass := classify_lead_append hlead hstart
  have hline : key ++ [' ', '=', ' '] ++ word.takeWhile isGap ++ (word.dropWhile isGap ++ comment)
      = key ++ [' ', '=', ' '] ++ word ++ comment := by
    rw [List.append_assoc, ← List.append_assoc (word.takeWhile isGap),
      List.takeWhile_append_dropWhile, ← List.append_assoc]
  rw [hs, hline] at hclass
  exact hclass

/-- **The word between its gaps,** as the line reader cuts it out, is the same word. -/
theorem trim_dropEnd_gap (word : List Char) :
    trim (dropEnd isGap (word.dropWhile isGap)) = trim word := by
  have hfront : ∀ c ∈ word.takeWhile isGap, isBlank c = true := by
    intro c hm
    exact isBlank_of_isGap (forall_takeWhile hm)
  have hback : ∀ c ∈ takeEnd isGap (word.dropWhile isGap), isBlank c = true := by
    intro c hm
    exact isBlank_of_isGap (forall_takeEnd hm)
  calc trim (dropEnd isGap (word.dropWhile isGap))
      = trim (word.takeWhile isGap ++ (dropEnd isGap (word.dropWhile isGap)
          ++ takeEnd isGap (word.dropWhile isGap))) := (trim_blanks hfront hback).symm
    _ = trim word := by rw [dropEnd_append_takeEnd, List.takeWhile_append_dropWhile]

/-- The one line of a text that ends in its only line feed; a carriage return in front of that
belongs to the line end. -/
theorem exists_lines_feed {front value : List Char} (hn : '\n' ∉ front ++ value)
    (hr : front.getLast? ≠ some '\r') : ∃ body returns ending, value = body ++ returns
      ∧ (∀ c ∈ returns, c = '\r') ∧ returns ++ ['\n'] = LineEnd.chars ending
      ∧ lines (front ++ value ++ ['\n']) = [⟨front ++ body, ending⟩] := by
  -- a carriage return at the end belongs to the line end, and anything else to the value
  by_cases hreturn : value.getLast? = some '\r'
  · obtain ⟨body, rfl⟩ := List.getLast?_eq_some_iff.mp hreturn
    have hproper : (Line.mk (front ++ body) .crlf).Proper := by
      refine ⟨?_, by simp, by simp⟩
      simp_all
    refine ⟨body, ['\r'], .crlf, rfl, by simp, rfl, ?_⟩
    rw [← lines_line hproper]
    simp [LineEnd.chars]
  · have hproper : (Line.mk (front ++ value) .lf).Proper := by
      refine ⟨hn, ?_, by simp⟩
      intro _ hlast
      rw [List.getLast?_append] at hlast
      cases hvalue : value.getLast? with
      | none =>
        rw [hvalue] at hlast
        exact hr hlast
      | some c =>
        rw [hvalue] at hlast
        exact hreturn (hvalue.trans hlast)
    exact ⟨value, [], .lf, by simp, by simp, rfl, lines_line hproper⟩

/-! ## 3. The values of documents

A document that can be read begins with a block of the grammar, and the block has been shown to have
a literal for its value.  What is left is to find that value in the line.
-/

/-- **What the first line of a document assigns is a literal** if the document can be read. -/
theorem isLiteralWord_of_readStrict {text : List Char} {tree : Value}
    (h : readStrict text = .ok tree) (hm : startsIn (· == byteOrderMark) text = false) {line : Line}
    {ls : List Line} {a : Assignment} (hl : lines text = line :: ls)
    (hk : classify line.content = .assignment a) :
    IsLiteralWord a.value := by
  obtain ⟨bs, -, hdoc, htext⟩ := exists_document h
  rw [withoutMark, hm, if_neg Bool.false_ne_true] at htext
  cases bs with
  | nil =>
    rw [← htext] at hl
    cases hl
  | cons b bs =>
    obtain ⟨hform, hne, hfollow, -⟩ := hdoc
    -- the first line of the document is the first line of its first block
    have hlast : b.text.getLast? = some '\n' ∨ blocksText bs = [] := by
      refine hfollow.imp ?_ id
      intro hrest
      rw [Block.text, ← List.append_assoc, List.getLast?_append, hrest]
      rfl
    rw [← htext, blocksText_cons, lines_append hlast] at hl
    cases hlines : lines b.text with
    | nil =>
      have hflat := flatten_lines b.text
      rw [hlines] at hflat
      exact absurd hflat.symm hne
    | cons first more =>
      rw [hlines] at hl
      obtain rfl := (List.cons.inj hl).1
      exact hform.isLiteralWord hlines hk

/-- **No value that can be read is taken for a bare word.**  It has the pattern of a literal,
whatever is read as its value: this is the whole language of the grammar against the two patterns
by which bare words are told from numbers and date-times. -/
theorem isBareWord_of_readStrict {value : List Char} {tree : Value} (hh : '#' ∉ value)
    (hn : '\n' ∉ value) (h : readStrict (['k', ' ', '=', ' '] ++ value ++ ['\n']) = .ok tree) :
    isBareWord value = false ∧ trim value ∈ Pattern.literal := by
  have hfeed : '\n' ∉ ['k', ' ', '=', ' '] ++ value := List.not_mem_append (by decide) hn
  obtain ⟨body, returns, ending, rfl, hreturns, -, hlines⟩ :=
    exists_lines_feed hfeed (by decide)
  have hkey : IsKey ['k'] [['k']] :=
    (isSimpleKey_bare (by simp) (List.forall_mem_singleton.mpr rfl)).isKey
  have hcut : Assignment.splitComment (body.dropWhile isGap ++ [])
      = (body.dropWhile isGap, []) := by
    rw [List.append_nil]
    refine splitComment_of_not_mem ?_
    intro hm
    exact hh (List.mem_append_left _ ((List.dropWhile_suffix isGap).subset hm))
  have hclass := hkey.classify_word (fun c hc => absurd hc (by simp)) hcut
  rw [List.append_nil] at hclass
  have hword := isLiteralWord_of_readStrict h rfl hlines hclass
  -- the value as it was given and the value that the line reader cut out are the same word
  have htrim : trim (body ++ returns) = trim (dropEnd isGap (body.dropWhile isGap)) := by
    have hblank : ∀ c ∈ returns, isBlank c = true := by
      intro c hc
      rw [hreturns c hc]
      decide
    rw [trim_append_blanks hblank, trim_dropEnd_gap]
  have hliteral := mem_literal_of_isLiteralWord hword
  rw [← htrim] at hliteral
  exact ⟨(isBareWord_congr htrim).trans hword.2, hliteral⟩

/-- A date and a time with a space between them, in front of a carriage return that belongs to
the line end. -/
theorem isBareWord_of_readStrict_datetime :
    let value :=
      ['1', '9', '7', '9', '-', '0', '5', '-', '2', '7', ' ', '0', '7', ':', '3', '2', 'Z', '\r']
    readStrict (['k', ' ', '=', ' '] ++ value ++ ['\n'])
        = .ok (.table [("k", .datetime "1979-05-27T07:32:00Z")])
      ∧ isBareWord value = false ∧ trim value ∈ Pattern.literal := by
  intro value
  have hread : readStrict (['k', ' ', '=', ' '] ++ value ++ ['\n'])
      = .ok (.table [("k", .datetime "1979-05-27T07:32:00Z")]) := by rfl
  exact ⟨hread, isBareWord_of_readStrict (by decide) (by decide) hread⟩

end TomlKeep
