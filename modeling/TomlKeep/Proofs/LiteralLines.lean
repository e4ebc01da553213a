/-
# A literal on a line of its own

The literal of a scalar is read back from a line that assigns it, strictly and relaxed
(`read_literalLine`).  The two readers see different things in it.  The grammar takes the literal
for a term of the scalar (`readStrict_assigned`).  The line reader takes it for the value of an
assignment, which is no bare word, so the line is not quoted before it is read
(`quoteBareWords_literalLine`).

That a literal stays on its line is a fact about its characters: no control character is left as
it is.
-/
import TomlKeep.Proofs.Amending
import TomlKeep.Proofs.FilledBlocks
import TomlKeep.Proofs.QuotedLines

namespace TomlKeep

open Text Toml

/-! ## 1. Quoting leaves a literal alone

The line is one piece, an entry with the literal for its value, and quoting is known for pieces.
-/

/-- A literal that can be read is no bare word. -/
theorem isBareWord_of_scalarOf? {literal : List Char} {value : Value}
    (h : scalarOf? literal = some value) : isBareWord literal = false := by
  unfold scalarOf? at h
  split at h
  -- a literal opens a string or is read as a token
  · next hq =>
    rw [eq_cons_of_startsIn hq]
    exact isBareWord_of_isQuotedStart rfl
  · exact isBareWord_of_tokenValue? h

/-- **A line that assigns a literal is left as it is.** -/
theorem quoteBareWords_literalLine {key : KeyPath} {lead literal : List Char} {value : Value}
    (hlead : IsLead key lead) (hfeed : '\n' ∉ lead) (hl : IsLiteral literal)
    (hv : scalarOf? literal = some value) :
    quoteBareWords (lead ++ literal ++ ['\n']) = lead ++ literal ++ ['\n'] := by
  let e : Entry := ⟨key, lead, literal, ['\n']⟩
  have hfits : e.Fits := by
    refine ⟨[], [], .lf, rfl, hlead, ⟨?_, ?_⟩, ?_, ?_⟩
    · intro c hc
      exact absurd hc List.not_mem_nil
    · intro c hc
      cases hc
    · simpa using hfeed
    · intro _
      simp
  -- the line is all of the text
  have hseg : Segmented [.entry e] := by
    refine ⟨?_, .inl rfl, trivial⟩
    intro behind _
    exact hfits.reads hl.oneLine behind
  have hquoted : (Piece.entry e).quoted = .entry e := by
    rw [Piece.quoted, Entry.quoted, if_neg (by simp [e, isBareWord_of_scalarOf? hv])]
  have htext : textOf [.entry e] = lead ++ literal ++ ['\n'] := by simp [Piece.text, Entry.text, e]
  have hquote := quoteBareWords_textOf hseg
  rwa [List.map_singleton, hquoted, htext] at hquote

/-! ## 2. A literal is read as its scalar

The line is read as a key, an equals sign and the literal, which is known to be read in front of any
rest of a line.  Gaps and a comment are allowed here, since a line with a captured word is read in
the same way.
-/

/-- A comment that the grammar takes, or nothing. -/
def IsTextComment (comment : List Char) : Prop :=
  comment = [] ∨ ∃ body, comment = '#' :: body ∧ ∀ c ∈ body, isTextChar c = true

/-- The text of a comment is skipped. -/
theorem skipLine?_text (rest : List Char) :
    ∀ {body : List Char}, (∀ c ∈ body, isTextChar c = true) →
    skipLine? true (body ++ rest) = skipLine? true rest
  | [], _ => rfl
  | c :: body, h => by
    obtain ⟨hc, hb⟩ := List.forall_mem_cons.mp h
    have hne : c ≠ '\n' ∧ c ≠ '\r' := by
      constructor <;>
      · rintro rfl
        exact absurd hc (by decide)
    rw [List.cons_append, skipLine?, if_neg hne.1, if_neg hne.2, if_pos rfl, if_pos hc,
      skipLine?_text rest hb]

/-- A comment has no control character but a tab. -/
theorem IsTextComment.not_mem {comment : List Char} (h : IsTextComment comment) {c : Char}
    (hc : isTextChar c = false) : c ∉ comment := by
  have hhash : c ≠ '#' := by
    rintro rfl
    exact absurd hc (by decide)
  rcases h with rfl | ⟨body, rfl, hbody⟩
  · exact List.not_mem_nil
  · rw [List.mem_cons, not_or]
    refine ⟨hhash, ?_⟩
    intro hm
    rw [hbody c hm] at hc
    cases hc

/-- If there is a comment, it begins with a hash. -/
theorem IsTextComment.head {comment : List Char} (h : IsTextComment comment) :
    ∀ c, comment.head? = some c → c = '#' := by
  intro c hhead
  rcases h with rfl | ⟨body, rfl, -⟩
  · cases hhead
  · exact (Option.some.inj hhead).symm

/-- **A gap, a comment and a line end** are the rest of a line. -/
theorem lineRest_of_isTextComment {gap comment : List Char} (hg : IsGapText gap)
    (hc : IsTextComment comment) (ending : LineEnd) :
    LineRest (gap ++ comment ++ ending.chars) := by
  have htail : IsTail gap comment := ⟨hg, hc.head⟩
  have hfeed : '\n' ∉ comment := hc.not_mem (by decide)
  refine ⟨⟨gap, comment, ending, rfl, htail, hfeed, hc.not_mem (by decide)⟩, ?_⟩
  intro behind hb
  have hend := (mayFollow_ending htail hfeed).mp hb
  rw [List.append_assoc, List.append_assoc, skipLine?_gap _ hg]
  rcases hc with rfl | ⟨body, rfl, hbody⟩
  · exact skipLine?_ending false ending hend
  · rw [List.cons_append, skipLine?, if_neg (by decide), if_neg (by decide),
      if_neg Bool.false_ne_true, if_neg (by decide), if_pos rfl, skipLine?_text _ hbody]
    exact skipLine?_ending true ending hend

/-- **A line that assigns a literal is a document of one entry,** with gaps around the literal
and a comment behind it or without. -/
theorem readStrict_assigned (key : String) {gap literal rest : List Char} {value : Value}
    (hg : IsGapText gap) (hl : IsLiteral literal) (hv : scalarOf? literal = some value)
    (hr : LineRest rest) :
    readStrict (writeKey key ++ ([' ', '=', ' '] ++ (gap ++ (literal ++ rest))))
      = .ok (.table [(key, value)]) := by
  have hstands := stands_of_isLiteral hl hv hr
  have hterm := hstands.taken [] (mayFollow_nil rest)
  obtain ⟨c, more, hkey, hc⟩ := exists_writeKey key
  have hbegin : Begins (writeKey key ++ ([' ', '=', ' '] ++ (gap ++ (literal ++ rest))))
      (some (.entry [key] (.leaf value), rest ++ [])) := by
    obtain ⟨d, tail, hcons, hgap, hfeed, hreturn, hhash, -⟩ := begun_writeKey key
    obtain ⟨rfl, rfl⟩ := List.cons.inj (hkey.symm.trans hcons)
    have hskip : skipGap? (' ' :: (gap ++ (literal ++ rest))) = some (literal ++ rest) := by
      have hspace : IsGapText (' ' :: gap) := List.forall_mem_cons.mpr ⟨rfl, hg⟩
      have hdrop : (' ' :: gap ++ (literal ++ rest)).dropWhile isGap = literal ++ rest :=
        dropWhile_gap hspace (hstands.head_append rest)
      exact congrArg some hdrop
    have hequals (more : List Char) : skipGap? ('=' :: more) = some ('=' :: more) := rfl
    have hbracket :
        startsIn (· == '[') (writeKey key ++ ([' ', '=', ' '] ++ (gap ++ (literal ++ rest))))
        = false := by
      rw [hkey]
      simpa [startsIn] using ne_of_beginsKey hc (by decide) (by decide) (by decide)
    refine ⟨c, more ++ ([' ', '=', ' '] ++ (gap ++ (literal ++ rest))), ?_, ?_, ?_⟩
    · rw [hkey]
      exact List.dropWhile_cons_of_neg (by simp [hgap])
    · simp [hfeed, hreturn, hhash]
    · rw [← List.cons_append, ← hkey, takeStatement?, hbracket, if_neg Bool.false_ne_true,
        takeBinding?_written key hequals hskip]
      rw [List.append_nil] at hterm ⊢
      rw [hterm]
      rfl
  generalize htext : writeKey key ++ ([' ', '=', ' '] ++ (gap ++ (literal ++ rest)))
    = text at hbegin
  -- a key does not begin with a byte order mark, so none is dropped
  have hmark : startsIn (· == '\uFEFF') text = false := by
    rw [← htext, hkey]
    simpa [startsIn] using ne_of_beginsKey hc (by decide) (by decide) (by decide)
  have hstatements : readStatements? text = some [.entry [key] (.leaf value)] := by
    obtain ⟨n, hn⟩ : ∃ n, text.length = n + 1 := ⟨_, by rw [← htext, hkey]; rfl⟩
    rw [readStatements?, hmark, if_neg Bool.false_ne_true, hn,
      hbegin.readLines? hr (mayFollow_nil rest)]
    rfl
  have hread : read? text = some [(key, value)] := by
    rw [read?, hstatements]
    rfl
  rw [readStrict, hread]

/-- **The literal of a scalar is read back.**  It stands on one line without a control character,
and the line that assigns it is read, strictly or relaxed, as the table of exactly that scalar. -/
theorem read_literalLine {value : Value} (hv : value.IsWritable) :
    ∃ literal, value.literal? = some literal ∧ (∀ c ∈ literal, isControl c = false)
      ∧ readStrict (['v', ' ', '=', ' '] ++ literal ++ ['\n']) = .ok (.table [("v", value)])
      ∧ readRelaxed (['v', ' ', '=', ' '] ++ literal ++ ['\n']) = .ok (.table [("v", value)]) := by
  obtain ⟨literal, hliteral⟩ := literal?_of_isPlain hv.1
  have hl : IsLiteral literal := isLiteral_of_literal? hv.1 hliteral
  have hread : scalarOf? literal = some value := hv.scalarOf? hliteral
  have hnothing : IsGapText [] := List.forall_mem_nil _
  have hstrict : readStrict (['v', ' ', '=', ' '] ++ literal ++ ['\n'])
      = .ok (.table [("v", value)]) := by
    have hend : LineRest ['\n'] := lineRest_of_isTextComment hnothing (.inl rfl) .lf
    rw [List.append_assoc]
    exact readStrict_assigned "v" hnothing hl hread hend
  have hkey : IsSimpleKey ['v'] ['v'] :=
    isSimpleKey_bare (by simp) (List.forall_mem_singleton.mpr rfl)
  have hspace : IsGapText [' '] := by
    intro c hc
    obtain rfl := List.mem_singleton.mp hc
    rfl
  -- for the line reader the same characters are the lead of an assignment
  have hlead : IsLead ⟨["v"]⟩ ['v', ' ', '=', ' '] :=
    hkey.isKey.isLead hnothing hspace hspace
  refine ⟨literal, hliteral, ?_, hstrict, ?_⟩
  · intro c hc
    rw [Bool.eq_false_iff]
    intro hcontrol
    exact hl.not_mem hcontrol hc
  · rw [readRelaxed, quoteBareWords_literalLine hlead (by decide) hl hread, hstrict]

/-- Quotes, a backslash, a line feed, a C1 control and a character beyond the basic plane are read
back. -/
theorem read_literalLine_escapes :
    (∀ c ∈ quote "\"a\\\n\u0085𝄞\"".toList, isControl c = false)
      ∧ readRelaxed (['v', ' ', '=', ' '] ++ quote "\"a\\\n\u0085𝄞\"".toList ++ ['\n'])
        = .ok (.table [("v", .string "\"a\\\n\u0085𝄞\"")]) := by
  have hv : (Value.string "\"a\\\n\u0085𝄞\"").IsWritable := ⟨rfl, by simp⟩
  obtain ⟨literal, hliteral, hcontrol, -, hread⟩ := read_literalLine hv
  obtain rfl := Option.some.inj hliteral
  exact ⟨hcontrol, hread⟩

end TomlKeep
