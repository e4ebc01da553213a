/-
# Documents passage by passage

A document can be written down passage by passage: lines that assign nothing, assignments of one
line, assignments of a multi-line string and of a value in brackets, each with all of its lines
(`IsPassage`).  What a passage is is said by the text alone, a multi-line string by the grammar
of TOML (`TripleBody`) and a value in brackets by the depth in front of each of its characters
(`Stretch`, `Balances`).

The scan knows a byte count and a number of open brackets only, and it finds the same passages:
it reports the first line of each for what it is and the others as lines that continue it
(`scan_passages`).  So nothing inside a value is taken for a header or an assignment, and behind
a value the scan is where it was in front of it.
-/
import TomlKeep.Proofs.Brackets

namespace TomlKeep

open Text

/-! ## 1. What stands in a multi-line string

The body is described by what follows the quotes in it: up to two of them in front of another
character, and up to two at the end.  The quotes at the end run into those that close the string,
and the reader gives them to the body, as many as there may be.
-/

/-- **The body of a multi-line string.**  One or two quotes may stand anywhere in it, but not
three, and in double quotes a backslash hides the character behind it. -/
inductive TripleBody (quote : Char) : List Char → Prop where
  | quotes {n : Nat} : n ≤ 2 → TripleBody quote (List.replicate n quote)
  | char {n : Nat} {c : Char} {body : List Char} : n ≤ 2 → c ≠ quote → ¬ (c = '\\' ∧ quote = '"') →
      TripleBody quote body → TripleBody quote (List.replicate n quote ++ c :: body)
  | hidden {n : Nat} {c : Char} {body : List Char} : n ≤ 2 → quote = '"' → TripleBody quote body →
      TripleBody quote (List.replicate n quote ++ '\\' :: c :: body)

/-- A text in three quotes. -/
def tripled (quote : Char) (body : List Char) : List Char :=
  quote :: quote :: quote :: (body ++ [quote, quote, quote])

variable {quote : Char}

/-- One or two quotes in front of another character close nothing. -/
theorem closeTriple?_quotes {text : List Char} (hq : quote ≠ '\\') (ht : text.head? ≠ some quote) :
    ∀ {n : Nat}, n ≤ 2 → closeTriple? quote (List.replicate n quote ++ text)
      = pushText (List.replicate n quote) (closeTriple? quote text)
  | 0, _ => by simp
  | n + 1, hn => by
    -- with two quotes at most, three of them do not stand in a row here
    have hnone : after? [quote, quote, quote] (quote :: (List.replicate n quote ++ text))
        = none := by
      rcases n with _ | _ | n
      · simp [after?, after?_eq_none ht]
      · simp [List.replicate, after?, after?_eq_none ht]
      · omega
    rw [List.replicate_succ, List.cons_append, closeTriple?_char (fun h => hq h.1) hnone,
      closeTriple?_quotes hq ht (Nat.le_of_succ_le hn), pushBefore_pushText]

/-- The quotes that close a string, and up to two that belong to it. -/
theorem splitRun_quotes {behind : List Char} (hb : behind.head? ≠ some quote) :
    ∀ {n k : Nat}, n ≤ k → splitRun quote k (List.replicate n quote ++ behind)
      = (List.replicate n quote, behind)
  | 0, 0, _ => rfl
  -- no more quotes, so the run ends whatever may still be taken
  | 0, k + 1, _ => by
    cases behind with
    | nil => rfl
    | cons c rest =>
      have hc : c ≠ quote := by simpa using hb
      simp [splitRun, hc]
  | n + 1, k + 1, h => by
    rw [List.replicate_succ, List.cons_append, splitRun, if_pos rfl,
      splitRun_quotes hb (Nat.le_of_succ_le_succ h)]

/-- Quotes in front of the ones that close the string stand behind these as well. -/
theorem replicate_append_triple (behind : List Char) : ∀ n : Nat,
    List.replicate n quote ++ (quote :: quote :: quote :: behind)
      = quote :: quote :: quote :: (List.replicate n quote ++ behind)
  | 0 => rfl
  | n + 1 => by
    rw [List.replicate_succ, List.cons_append, replicate_append_triple behind n, List.cons_append]

/-- **A multi-line string is closed behind its body,** whatever follows but another quote. -/
theorem TripleBody.closeTriple? {body : List Char} (h : TripleBody quote body) (hq : quote ≠ '\\')
    {behind : List Char} (hb : behind.head? ≠ some quote) :
    closeTriple? quote (body ++ (quote :: quote :: quote :: behind))
      = some (body ++ [quote, quote, quote], behind) := by
  -- quotes up to the end, quotes in front of a character, and quotes in front of one that is hidden
  induction h with
  | @quotes n hn =>
    have hafter : after? [quote, quote, quote]
        (quote :: quote :: quote :: (List.replicate n quote ++ behind))
          = some (List.replicate n quote ++ behind) := after?_eq_some_iff.mpr rfl
    rw [replicate_append_triple, closeTriple?_close (fun h => hq h.1) hafter, splitRun_quotes hb hn,
      replicate_append_triple, List.append_nil]
  | @char n c body hn hc hhide _ ih =>
    have hhead : (c :: (body ++ (quote :: quote :: quote :: behind))).head? ≠ some quote := by
      simpa using hc
    have hnone : after? [quote, quote, quote] (c :: (body ++ (quote :: quote :: quote :: behind)))
        = none := after?_eq_none hhead
    rw [List.append_assoc, List.cons_append, closeTriple?_quotes hq hhead hn,
      closeTriple?_char hhide hnone, ih]
    simp [pushBefore]
  | @hidden n c body hn hdouble _ ih =>
    subst hdouble
    have hhead : ('\\' :: c :: (body ++ ('"' :: '"' :: '"' :: behind))).head? ≠ some '"' := by simp
    rw [List.append_assoc, List.cons_append, List.cons_append, closeTriple?_quotes hq hhead hn,
      closeTriple?_hidden, ih]
    simp [pushBefore]

/-- A text in three quotes ends in a quote. -/
theorem getLast?_tripled (quote : Char) (body : List Char) :
    (tripled quote body).getLast? = some quote := by
  have hend : tripled quote body = (quote :: quote :: quote :: (body ++ [quote, quote]))
      ++ [quote] := by
    simp [tripled]
  rw [hend, List.getLast?_concat]

/-- A string in three quotes is split off a text. -/
theorem splitMultiline?_tripled {body : List Char} (h : TripleBody quote body)
    (hq : quote = '"' ∨ quote = '\'') {behind : List Char} (hb : behind.head? ≠ some quote) :
    splitMultiline? (tripled quote body ++ behind) = some (tripled quote body, behind) := by
  have hne : quote ≠ '\\' := by rcases hq with rfl | rfl <;> decide
  have htriple : tripleQuote? (tripled quote body ++ behind) = some quote := by
    rcases hq with rfl | rfl <;> rfl
  have hdrop : (tripled quote body ++ behind).drop 3
      = body ++ (quote :: quote :: quote :: behind) := by
    simp [tripled]
  simp only [splitMultiline?, htriple, hdrop, h.closeTriple? hne hb]
  rfl

/-! ## 2. What stands in brackets

A stretch is read with the number of open brackets at hand.  It has no rule for a bracket or a quote
when nothing is open, so a value cannot go on behind the bracket that closes it.
-/

/-- Blanks, and a comment behind them or nothing. -/
def IsBlankTail (tail : List Char) : Prop :=
  ∃ blanks comment, tail = blanks ++ comment ∧ (∀ c ∈ blanks, isBlank c = true)
    ∧ ∀ c, comment.head? = some c → c = '#'

/-- **A stretch of a line** from some brackets open to other brackets open.  While one is open a
line may end in a comment; once none is, nothing but blanks and a comment follows. -/
inductive Stretch : Nat → List Char → Nat → Prop where
  | comment {depth : Nat} {comment : List Char} : (∀ c, comment.head? = some c → c = '#') →
      Stretch (depth + 1) comment (depth + 1)
  | tail {tail : List Char} : IsBlankTail tail → Stretch 0 tail 0
  | piece {depth depth' : Nat} {piece text : List Char} : Outside isNoBracket piece →
      Stretch (depth + 1) text depth' → Stretch (depth + 1) (piece ++ text) depth'
  | opens {depth depth' : Nat} {c : Char} {text : List Char} : c = '[' ∨ c = '{' →
      Stretch (depth + 2) text depth' → Stretch (depth + 1) (c :: text) depth'
  | closes {depth depth' : Nat} {c : Char} {text : List Char} : c = ']' ∨ c = '}' →
      Stretch depth text depth' → Stretch (depth + 1) (c :: text) depth'

/-- **Lines that close the brackets** that are open in front of them, on the last line and not
before. -/
inductive Balances : Nat → List Line → Prop where
  | done : Balances 0 []
  | line {depth depth' : Nat} {line : Line} {later : List Line} :
      Stretch (depth + 1) line.content depth' → Balances depth' later →
      Balances (depth + 1) (line :: later)

/-- Blanks are no brackets. -/
theorem IsBlankTail.bracketBalance {tail : List Char} (h : IsBlankTail tail) :
    bracketBalance .outside tail = 0 := by
  obtain ⟨blanks, comment, rfl, hblanks, hcomment⟩ := h
  -- a blank is none of the characters that count
  have ne {c d : Char} (hc : c ∈ blanks) (hd : isBlank d = false) : c ≠ d := by
    rintro rfl
    rw [hblanks c hc] at hd
    cases hd
  have houtside : Outside isNoBracket blanks := outside_of_forall fun c hc => by
    simp [isNoBracket, ne hc (d := '"') (by decide), ne hc (d := '\'') (by decide),
      ne hc (d := '[') (by decide), ne hc (d := '{') (by decide), ne hc (d := ']') (by decide),
      ne hc (d := '}') (by decide), ne hc (d := '#') (by decide)]
  rw [bracketBalance_outside houtside, Walk.bracketBalance_comment hcomment]

/-- No quote stands at the beginning of blanks and a comment. -/
theorem IsBlankTail.head_ne {tail : List Char} (h : IsBlankTail tail) {quote : Char}
    (hq : quote = '"' ∨ quote = '\'') : tail.head? ≠ some quote := by
  obtain ⟨blanks, comment, rfl, hblanks, hcomment⟩ := h
  intro hhead
  have hmark : isBlank quote = true ∨ quote = '#' := by
    cases blanks with
    | nil => exact .inr (hcomment quote hhead)
    | cons c blanks =>
      obtain rfl := Option.some.inj hhead
      exact .inl (hblanks _ List.mem_cons_self)
  revert hmark
  rcases hq with rfl | rfl <;> decide

/-- **The scan counts the brackets of a stretch.** -/
theorem Stretch.bracketBalance {depth depth' : Nat} {text : List Char}
    (h : Stretch depth text depth') :
    (depth : Int) + bracketBalance .outside text = depth' := by
  -- by the stretch; a bracket that opens or closes counts for one, and everything else for nothing
  induction h with
  | comment h => rw [Walk.bracketBalance_comment h, Int.add_zero]
  | tail h => rw [h.bracketBalance, Int.add_zero]
  | piece h _ ih => rw [bracketBalance_outside h, ih]
  | @opens depth _ c text h _ ih =>
    have hcount : TomlKeep.bracketBalance .outside (c :: text)
        = 1 + TomlKeep.bracketBalance .outside text := by
      rcases h with rfl | rfl <;> simp [TomlKeep.bracketBalance]
    rw [hcount]
    push_cast at ih ⊢
    omega
  | @closes depth _ c text h _ ih =>
    have hcount : TomlKeep.bracketBalance .outside (c :: text)
        = TomlKeep.bracketBalance .outside text - 1 := by
      rcases h with rfl | rfl <;> simp [TomlKeep.bracketBalance]
    rw [hcount]
    push_cast at ih ⊢
    omega

/-- **Brackets are open until they balance,** and then nothing is.  The induction is on the
lines, and each of them begins with a bracket still open. -/
theorem Balances.scanLines {depth : Nat} {ls : List Line} (h : Balances depth ls)
    (more : List Line) :
    ∀ offset, scanLines offset (.ofDepth depth) (ls ++ more)
      = continued offset ls
        ++ scanLines (offset + byteLength (ls.flatMap Line.chars)) .closed more := by
  induction h with
  | done =>
    intro offset
    simp [Pending.ofDepth, continued]
  | @line depth depth' line later hstretch _ ih =>
    intro offset
    have hopen : Pending.ofDepth ((depth + 1 : Nat) : Int) = .brackets
        ((depth + 1 : Nat) : Int) := by
      rw [Pending.ofDepth, if_pos (by omega)]
    rw [hopen, List.cons_append, TomlKeep.scanLines]
    simp only [hstretch.bracketBalance, ih, continued]
    simp [Nat.add_assoc]

/-! ## 3. Passages

For each kind of passage it is shown that the scan, once at its first line, comes out behind its
last with nothing open.  For a multi-line string the line ends have to be looked after, since it is
cut out of the text and not out of lines.
-/

/-- **A passage of a document,** with all of its lines.

* `plain`: a line that assigns nothing.
* `value`: an assignment whose value begins with no bracket and no three quotes.
* `string`: an assignment of a multi-line string, behind which its last line has blanks and a
  comment only.
* `brackets`: an assignment of a value in brackets, which balance for the first time on its last
  line. -/
inductive IsPassage : List Line → Prop where
  | plain {line : Line} : (∀ a, classify line.content ≠ .assignment a) → IsPassage [line]
  | value {line : Line} {a : Assignment} : classify line.content = .assignment a →
      startsIn (fun c => c == '[' || c == '{') a.value = false → tripleQuote? a.value = none →
      IsPassage [line]
  | string {first : Line} {later : List Line} {a : Assignment} {quote : Char}
      {body tail : List Char} {ending : LineEnd} :
      classify first.content = .assignment a → quote = '"' ∨ quote = '\'' →
      TripleBody quote body → IsBlankTail tail → '\n' ∉ tail →
      (first :: later).flatMap Line.chars = a.lead ++ tripled quote body ++ (tail ++ ending.chars) →
      IsPassage (first :: later)
  | brackets {first : Line} {later : List Line} {a : Assignment} {c : Char} {text : List Char}
      {depth : Nat} : classify first.content = .assignment a → c = '[' ∨ c = '{' →
      a.value ++ a.gap ++ a.comment = c :: text → Stretch 1 text depth → Balances depth later →
      IsPassage (first :: later)

/-- What is to be reported of a passage. -/
def reported : List Line → List (Line × LineKind)
  | [] => []
  | first :: later => (first, classify first.content) :: later.map fun line => (line, .other)

/-- The rest of a line and its end, with a carriage return in front of a line feed taken for a
part of the end. -/
theorem exists_content {tail : List Char} (hfeed : '\n' ∉ tail) (ending : LineEnd) :
    ∃ content ending', content ++ LineEnd.chars ending' = tail ++ ending.chars ∧ '\n' ∉ content
      ∧ (ending' = .lf → content.getLast? ≠ some '\r') := by
  by_cases hr : ending = .lf ∧ tail.getLast? = some '\r'
  · obtain ⟨rfl, hlast⟩ := hr
    obtain ⟨content, rfl⟩ := List.getLast?_eq_some_iff.mp hlast
    exact ⟨content, .crlf, by simp [LineEnd.chars], fun hm => hfeed (List.mem_append_left _ hm),
      by simp⟩
  · exact ⟨tail, ending, rfl, hfeed, fun he hlast => hr ⟨he, hlast⟩⟩

/-- Three quotes at the beginning of a text stand on its first line. -/
theorem tripleQuote?_of_append {body rest inner : List Char} {ending : LineEnd}
    (hq : quote = '"' ∨ quote = '\'') (hend : ending = .none → rest = [])
    (h : body ++ (ending.chars ++ rest) = quote :: quote :: quote :: inner) :
    tripleQuote? body = some quote := by
  have hstop : ∀ c more, ending.chars ++ rest = c :: more → c ≠ quote := by
    intro c more hc
    cases ending with
    | none => simp [LineEnd.chars, hend] at hc
    | lf | crlf =>
      obtain ⟨rfl, -⟩ := List.cons.inj hc
      rcases hq with rfl | rfl <;> decide
  rcases body with _ | ⟨x, _ | ⟨y, _ | ⟨z, body⟩⟩⟩
  · exact absurd rfl (hstop _ _ h)
  · exact absurd rfl (hstop _ _ (List.cons.inj h).2)
  · exact absurd rfl (hstop _ _ (List.cons.inj (List.cons.inj h).2).2)
  · obtain ⟨rfl, rfl, rfl, -⟩ : x = quote ∧ y = quote ∧ z = quote ∧ _ := by simpa using h
    rcases hq with rfl | rfl <;> simp [tripleQuote?, beginsWith, after?]

/-- **The first line of a multi-line string** begins it with three quotes. -/
theorem tripleQuote?_firstLine {first : Line} {later : List Line} {a : Assignment}
    {body rest : List Char} (hp : ProperLines (first :: later))
    (hk : classify first.content = .assignment a) (hq : quote = '"' ∨ quote = '\'')
    (htext : (first :: later).flatMap Line.chars = a.lead ++ tripled quote body ++ rest) :
    tripleQuote? (a.value ++ a.gap ++ a.comment) = some quote := by
  obtain ⟨-, hchars⟩ := classify_eq_assignment_iff.mp hk
  have hline : a.lead ++ (a.value ++ a.gap ++ a.comment
      ++ (first.ending.chars ++ later.flatMap Line.chars))
      = a.lead ++ (tripled quote body ++ rest) := by
    rw [← List.append_assoc a.lead (tripled quote body), ← htext, List.flatMap_cons, Line.chars,
      ← hchars]
    simp [Assignment.chars]
  have hend : first.ending = .none → later.flatMap Line.chars = [] := by
    intro he
    rw [hp.2.1 he]
    rfl
  exact tripleQuote?_of_append hq hend (List.append_cancel_left hline)

/-- **No quote follows a multi-line string,** on its last line or behind it. -/
theorem head?_behind_string {ls more : List Line} {front tail : List Char} {ending : LineEnd}
    (hp : ProperLines (ls ++ more)) (hne : ls ≠ []) (hq : quote = '"' ∨ quote = '\'')
    (hfront : front.getLast? = some quote) (htail : IsBlankTail tail)
    (htext : ls.flatMap Line.chars = front ++ (tail ++ ending.chars)) :
    (tail ++ ending.chars ++ more.flatMap Line.chars).head? ≠ some quote := by
  have hfeed : quote ≠ '\n' ∧ quote ≠ '\r' := by rcases hq with rfl | rfl <;> decide
  cases tail with
  | cons c tail => exact htail.head_ne hq
  | nil =>
    cases ending with
    | lf => simpa [LineEnd.chars] using Ne.symm hfeed.1
    | crlf => simpa [LineEnd.chars] using Ne.symm hfeed.2
    | none =>
      -- the text ends in a quote, so these lines are the last ones
      have hlast : (ls.flatMap Line.chars).getLast? ≠ some '\n' := by
        simpa [htext, LineEnd.chars, hfront] using hfeed.1
      simp [LineEnd.chars, (getLast?_lines hp hne).resolve_right hlast]

/-- An assignment of a multi-line string is scanned to its end.  The string is found where the
passage has it, and what is left of its last line is blank but for a comment. -/
theorem standBefore_string {first : Line} {later more : List Line} {a : Assignment}
    {body tail : List Char} {ending : LineEnd} (hp : ProperLines (first :: later ++ more))
    (hk : classify first.content = .assignment a) (hq : quote = '"' ∨ quote = '\'')
    (hbody : TripleBody quote body) (htail : IsBlankTail tail) (hfeed : '\n' ∉ tail)
    (htext : (first :: later).flatMap Line.chars
      = a.lead ++ tripled quote body ++ (tail ++ ending.chars)) :
    StandBefore ((first :: later).flatMap Line.chars) (more.flatMap Line.chars) := by
  have hlast : (tripled quote body).getLast? = some quote := getLast?_tripled quote body
  obtain ⟨content, ending', hrest, hcontent, hreturn⟩ := exists_content hfeed ending
  let c : StringEnd := ⟨tripled quote body, content, ending'⟩
  have hcut : c.Cut := by
    refine ⟨?_, hcontent, hreturn⟩
    rcases hq with rfl | rfl
    · exact .inl hlast
    · exact .inr hlast
  have hrest' : c.rest = tail ++ ending.chars := hrest
  have hl : lines (a.lead ++ c.value ++ c.rest) = first :: later := by
    rw [hrest', ← htext, lines_flatten hp.left]
  have htriple := tripleQuote?_firstLine hp.left hk hq htext
  -- no quote behind those that close the string may be taken for one more of them
  have hhead : (c.rest ++ more.flatMap Line.chars).head? ≠ some quote := by
    have hne : tripled quote body ≠ [] := List.cons_ne_nil _ _
    rw [hrest']
    refine head?_behind_string hp (List.cons_ne_nil _ _) hq ?_ htail htext
    rw [List.getLast?_append_of_ne_nil _ hne, hlast]
  rw [htext, ← hrest']
  exact hcut.standBefore hl hk (by rw [htriple]; rfl) (splitMultiline?_tripled hbody hq hhead)

/-- A bracket leaves open what is open behind the rest of its line. -/
theorem ofAssignment_of_stretch {first : Line} {a : Assignment} {c : Char} {text : List Char}
    {depth : Nat} (hc : c = '[' ∨ c = '{') (hvalue : a.value ++ a.gap ++ a.comment = c :: text)
    (hstretch : Stretch 1 text depth) (following : List Line) :
    Pending.ofAssignment a first following = .ofDepth depth := by
  -- a bracket is no quote
  have hnone : tripleQuote? (c :: text) = none := by
    refine tripleQuote?_eq_none ?_ ?_ <;> rcases hc with rfl | rfl <;> simp
  have hstarts : startsIn (fun c => c == '[' || c == '{') (c :: text) = true := by
    rcases hc with rfl | rfl <;> rfl
  have hcount : bracketBalance .outside (c :: text) = depth := by
    rw [← hstretch.bracketBalance]
    rcases hc with rfl | rfl <;> simp [bracketBalance]
  simp only [Pending.ofAssignment, hvalue, hnone, hstarts, if_true, hcount]

/-- An assignment of a value in brackets is scanned to where they balance. -/
theorem standBefore_brackets {first : Line} {later more : List Line} {a : Assignment} {c : Char}
    {text : List Char} {depth : Nat} (hp : ProperLines (first :: later ++ more))
    (hk : classify first.content = .assignment a) (hc : c = '[' ∨ c = '{')
    (hvalue : a.value ++ a.gap ++ a.comment = c :: text) (hstretch : Stretch 1 text depth)
    (hlater : Balances depth later) :
    StandBefore ((first :: later).flatMap Line.chars) (more.flatMap Line.chars) := by
  have hlines : lines ((first :: later).flatMap Line.chars) = first :: later :=
    lines_flatten hp.left
  have hbehind : lines (more.flatMap Line.chars) = more := lines_flatten hp.right
  intro offset
  rw [hlines, hbehind, List.cons_append, scanLines, hk, together, hk]
  simp only [ofAssignment_of_stretch hc hvalue hstretch, hlater.scanLines]
  simp [Nat.add_assoc]

/-- **A passage is scanned on its own,** whatever lines follow. -/
theorem IsPassage.standBefore {item more : List Line} (h : IsPassage item)
    (hp : ProperLines (item ++ more)) :
    StandBefore (item.flatMap Line.chars) (more.flatMap Line.chars) := by
  have hlines : lines (item.flatMap Line.chars) = item := lines_flatten hp.left
  -- by the kinds of passages
  cases h with
  | plain hk => exact standBefore_line hlines fun a ha => absurd ha (hk a)
  | @value line a hk hb ht =>
    obtain ⟨hf, -⟩ := classify_eq_assignment_iff.mp hk
    refine standBefore_line hlines fun b hb' => ?_
    obtain rfl := LineKind.assignment.inj (hk.symm.trans hb')
    refine ofAssignment_of_closed ?_ ?_ _ _
    · rw [tripleQuote?_tail hf.tail, ht]
    · rw [hf.startsIn_body rfl, hb]
  | string hk hq hbody htail hfeed htext =>
    exact standBefore_string hp hk hq hbody htail hfeed htext
  | brackets hk hc hvalue hstretch hlater =>
    exact standBefore_brackets hp hk hc hvalue hstretch hlater

/-! ## 4. Whole documents

The passages are put one behind the other, and the scan goes through them in this order.
-/

/-- Lines that continue a value are reported as lines of no kind. -/
theorem map_continued (ls : List Line) : ∀ offset,
    (continued offset ls).map (fun s => (s.line, s.kind)) = ls.map fun line => (line, .other) := by
  induction ls with
  | nil => exact fun _ => rfl
  | cons line ls ih =>
    intro offset
    rw [continued, List.map_cons, List.map_cons, ih]

/-- Lines that belong together are reported as a passage is. -/
theorem map_together (offset : Nat) (ls : List Line) :
    (together offset ls).map (fun s => (s.line, s.kind)) = reported ls := by
  cases ls with
  | nil => rfl
  | cons line ls => rw [together, List.map_cons, map_continued, reported]

/-- The scan goes from passage to passage, and is closed in front of each. -/
theorem map_scanLines_flatten : ∀ {items : List (List Line)}, ProperLines items.flatten →
    (∀ item ∈ items, IsPassage item) → ∀ offset,
      (scanLines offset .closed items.flatten).map (fun s => (s.line, s.kind))
        = items.flatMap reported
  | [], _, _, _ => rfl
  | item :: items, hp, hi, offset => by
    rw [List.flatten_cons] at hp
    obtain ⟨hitem, hitems⟩ := List.forall_mem_cons.mp hi
    have hrun := hitem.standBefore hp offset
    rw [lines_flatten hp.left, lines_flatten hp.right] at hrun
    rw [List.flatten_cons, hrun, List.map_append, map_together,
      map_scanLines_flatten hp.right hitems, List.flatMap_cons]

/-- **A document is scanned passage by passage.**  Of each passage the first line is reported for
what it is on its own, and the others as lines that continue it. -/
theorem scan_passages {text : List Char} {items : List (List Line)} (h : lines text = items.flatten)
    (hi : ∀ item ∈ items, IsPassage item) :
    (scan text).map (fun s => (s.line, s.kind)) = items.flatMap reported := by
  have hp := properLines_lines text
  rw [h] at hp
  rw [scan, h]
  exact map_scanLines_flatten hp hi 0

/-- A header, a string with a line in it that looks like one and a quote right before those that
close it, and an array with brackets in a comment and in a string. -/
theorem scan_passages_mixed :
    let text := ['[', 's', ']', '\r', '\n',
      'a', '=', '"', '"', '"', '\n', '[', 't', ']', '"', '"', '"', '"', ' ', '#', '"', '\n',
      'b', '=', '[', '#', ']', '\n', '"', ']', '"', ']', '\n', 'c', '=', '1']
    let items : List (List Line) := [[⟨['[', 's', ']'], .crlf⟩],
      [⟨['a', '=', '"', '"', '"'], .lf⟩, ⟨['[', 't', ']', '"', '"', '"', '"', ' ', '#', '"'], .lf⟩],
      [⟨['b', '=', '[', '#', ']'], .lf⟩, ⟨['"', ']', '"', ']'], .lf⟩],
      [⟨['c', '=', '1'], .none⟩]]
    lines text = items.flatten
      ∧ (scan text).map (fun s => (s.line, s.kind)) = items.flatMap reported := by
  intro text items
  have h : lines text = items.flatten := by rfl
  refine ⟨h, scan_passages h ?_⟩
  have hbody : TripleBody '"' ['\n', '[', 't', ']', '"'] :=
    .char (n := 0) (by decide) (by decide) (by decide) <|
      .char (n := 0) (by decide) (by decide) (by decide) <|
      .char (n := 0) (by decide) (by decide) (by decide) <|
      .char (n := 0) (by decide) (by decide) (by decide) <| .quotes (n := 1) (by decide)
  have htail : IsBlankTail [' ', '#', '"'] :=
    ⟨[' '], ['#', '"'], rfl, List.forall_mem_singleton.mpr rfl, by simp⟩
  have htext : [Line.mk ['a', '=', '"', '"', '"'] .lf,
      ⟨['[', 't', ']', '"', '"', '"', '"', ' ', '#', '"'], .lf⟩].flatMap Line.chars
        = ['a', '='] ++ tripled '"' ['\n', '[', 't', ']', '"']
          ++ ([' ', '#', '"'] ++ LineEnd.lf.chars) := by rfl
  have hstring : Outside isNoBracket ['"', ']', '"'] :=
    .double (.char (by decide) (by decide) .nil) .nil
  have hfirst : Stretch 1 ['#', ']'] 1 := .comment (by simp)
  have hlast : Stretch 1 ['"', ']', '"', ']'] 0 :=
    .piece hstring (.closes (.inl rfl) (.tail ⟨[], [], rfl, by simp, by simp⟩))
  simp only [items, List.forall_mem_cons, List.not_mem_nil, false_implies, implies_true, and_true]
  refine ⟨.plain ?_, ?_, ?_, ?_⟩
  · intro a ha
    cases ha
  · exact .string rfl (.inl rfl) hbody htail (by decide) htext
  · exact .brackets rfl (.inl rfl) rfl hfirst (.line hlast .done)
  · exact .value rfl rfl rfl

end TomlKeep
