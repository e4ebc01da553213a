/-
# Every document falls into pieces

A text is cut from its beginning: a line that is no assignment, an assignment of one line, an
assignment with the lines up to where its string is closed or its brackets balance.  Each of these
is a piece that is read on its own, and the cut goes on behind it (`exists_segmented`).  Only a
string that is never closed or brackets that never balance take all that is left; then nothing is
left to be cut.
-/
import TomlKeep.Proofs.Filling

namespace TomlKeep

open Text

/-! ## 1. Lines that continue a value

Three things may be pending behind a line: a string that never ends, a string with some bytes to go,
and some open brackets.  For each of them it is said which lines continue it, and that the scan goes
on behind these with nothing pending.
-/

/-- Everything continues a string that is never closed. -/
theorem scanLines_endless : ∀ (offset : Nat) (ls : List Line),
    scanLines offset .endless ls = continued offset ls
  | _, [] => rfl
  | offset, line :: ls => by
    rw [scanLines, continued, scanLines_endless]

/-- **A string continues to the line on which it ends.**  Of that line it has at least a byte.
The induction is on the lines in between: each of them is shorter than what the string has to go,
so the string takes it whole and goes on with its length less. -/
theorem scanLines_string {last : Line} {n : Nat} (h0 : 0 < n) (hn : n ≤ byteLength last.content)
    (more : List Line) : ∀ (offset : Nat) (ls : List Line),
      scanLines offset (.string (byteLength (ls.flatMap Line.chars) + n)) (ls ++ last :: more)
        = continued offset (ls ++ [last])
          ++ scanLines (offset + byteLength ((ls ++ [last]).flatMap Line.chars)) .closed more
  | offset, [] => by
    simp [scanLines, continued, Pending.pastLine, hn]
  | offset, line :: ls => by
    -- the line is shorter than what is left, since the lines behind it and a byte are still to come
    have hlong : ¬ byteLength ((line :: ls).flatMap Line.chars) + n ≤ byteLength line.content := by
      simp only [List.flatMap_cons, byteLength_append, Line.chars]
      omega
    have hleft : byteLength ((line :: ls).flatMap Line.chars) + n - byteLength line.chars
        = byteLength (ls.flatMap Line.chars) + n := by
      simp only [List.flatMap_cons, byteLength_append]
      omega
    rw [List.cons_append, scanLines, Pending.pastLine, if_neg hlong, hleft,
      scanLines_string h0 hn more]
    simp [continued, Nat.add_assoc]

/-- The same behind the first line of the string. -/
theorem scanLines_pastLine {line last : Line} {front tail : List Line} {n : Nat}
    (h : front ++ [last] = line :: tail) (h0 : 0 < n) (hn : n ≤ byteLength last.content)
    (more : List Line) (offset : Nat) :
    scanLines offset (.pastLine line (byteLength (front.flatMap Line.chars) + n)) (tail ++ more)
      = continued offset tail
        ++ scanLines (offset + byteLength (tail.flatMap Line.chars)) .closed more := by
  -- the string ends on its first line, or that line is the first of those that it takes whole
  cases front with
  | nil =>
    obtain ⟨rfl, rfl⟩ : last = line ∧ [] = tail := by simpa using h
    simp [Pending.pastLine, hn, continued]
  | cons l front =>
    obtain ⟨rfl, rfl⟩ : l = line ∧ front ++ [last] = tail := by simpa using h
    have hlong : ¬ byteLength ((l :: front).flatMap Line.chars) + n ≤ byteLength l.content := by
      simp only [List.flatMap_cons, byteLength_append, Line.chars]
      omega
    have hleft : byteLength ((l :: front).flatMap Line.chars) + n - byteLength l.chars
        = byteLength (front.flatMap Line.chars) + n := by
      simp only [List.flatMap_cons, byteLength_append]
      omega
    rw [Pending.pastLine, if_neg hlong, hleft, List.append_assoc, List.singleton_append,
      scanLines_string h0 hn]

/-- The lines up to where the brackets balance, and the lines behind them. -/
def takeBrackets : Int → List Line → List Line × List Line
  | _, [] => ([], [])
  | depth, line :: rest =>
    if 0 < depth then
      let (taken, behind) := takeBrackets (depth + bracketBalance .outside line.content) rest
      (line :: taken, behind)
    else ([], line :: rest)

/-- Nothing is lost between the lines that are taken and those behind them. -/
theorem takeBrackets_append : ∀ (depth : Int) (ls : List Line),
    (takeBrackets depth ls).1 ++ (takeBrackets depth ls).2 = ls
  | _, [] => rfl
  | depth, line :: rest => by
    rw [takeBrackets]
    split
    · simp [takeBrackets_append]
    · rfl

/-- **Brackets continue to the line on which they balance.**  What stands behind that line may be
replaced by anything; only brackets that never balance take all lines, and then nothing may
follow. -/
theorem scanLines_brackets : ∀ (offset : Nat) (depth : Int) (ls more : List Line),
    ((takeBrackets depth ls).2 = [] → more = []) →
      scanLines offset (.ofDepth depth) ((takeBrackets depth ls).1 ++ more)
        = continued offset (takeBrackets depth ls).1
          ++ scanLines (offset + byteLength ((takeBrackets depth ls).1.flatMap Line.chars)) .closed
            more
  | _, _, [], more, h => by
    rw [h rfl]
    simp [takeBrackets, continued, scanLines]
  | offset, depth, line :: rest, more, h => by
    rw [takeBrackets] at h ⊢
    by_cases hd : 0 < depth
    · simp only [hd, if_true] at h ⊢
      have ih := scanLines_brackets (offset + byteLength line.chars)
        (depth + bracketBalance .outside line.content) rest more h
      simp [Pending.ofDepth, hd, scanLines, continued, Nat.add_assoc] at ih ⊢
      exact ih
    · simp [Pending.ofDepth, hd, continued]

/-! ## 2. The first line of a text

A value ends in the middle of a line, and the rest of that line belongs to its entry.  So a text is
cut once more where its first line ends, and a text that stops inside a line is put together with
the rest of that line.
-/

/-- What is cut off a text as its first line. -/
theorem exists_firstLine (text : List Char) : ∃ content ending rest,
    text = content ++ LineEnd.chars ending ++ rest ∧ '\n' ∉ content
      ∧ (ending = .lf → content.getLast? ≠ some '\r') ∧ (ending = .none → rest = []) := by
  have hp := properLines_lines text
  have ht := flatten_lines text
  cases hl : lines text with
  | nil =>
    rw [hl] at ht
    exact ⟨[], .none, [], by simpa [LineEnd.chars] using ht.symm, by simp, by simp, by simp⟩
  | cons line ls =>
    rw [hl] at hp ht
    refine ⟨line.content, line.ending, ls.flatMap Line.chars, ?_, hp.1.noFeed, hp.1.noReturn,
      fun he => by simp [hp.2.1 he]⟩
    simpa [Line.chars] using ht.symm

/-- A text that ends within a line goes on with the rest of that line. -/
theorem lines_append_content {text content : List Char} {ending : LineEnd} {c : Char}
    (hc : text.getLast? = some c) (hn : c ≠ '\n') (hr : c ≠ '\r') (hfeed : '\n' ∉ content)
    (hret : ending = .lf → content.getLast? ≠ some '\r') :
    ∃ ls part, part ≠ [] ∧ text = ls.flatMap Line.chars ++ part
      ∧ lines (text ++ (content ++ ending.chars)) = ls ++ [⟨part ++ content, ending⟩] := by
  have hp := properLines_lines text
  have ht := flatten_lines text
  rcases List.eq_nil_or_concat (lines text) with hl | ⟨ls, last, hl⟩
  · rw [hl] at ht
    simp [← ht] at hc
  · rw [List.concat_eq_append] at hl
    rw [hl] at hp ht
    -- the text does not end in a line feed, so its last line has no end yet
    have hnone : last.ending = .none := by
      cases he : last.ending with
      | none => rfl
      | lf | crlf =>
        simp [Line.chars, he, LineEnd.chars] at ht
        simp [← ht] at hc
        exact absurd hc.symm hn
    have hlast : last.Proper := hp.right.1
    have htext : text = ls.flatMap Line.chars ++ last.content := by
      simpa [Line.chars, hnone, LineEnd.chars] using ht.symm
    have hne := hlast.nonempty hnone
    have hlastc : last.content.getLast? = some c := by
      rw [htext, List.getLast?_append_of_ne_nil _ hne] at hc
      exact hc
    refine ⟨ls, last.content, hne, htext, ?_⟩
    -- this line takes the content up; the text does not end in a carriage return that could be lost
    have hnew : (Line.mk (last.content ++ content) ending).Proper := by
      refine ⟨?_, fun hlf => ?_, fun _ => by simp [hne]⟩
      · simpa using ⟨hlast.noFeed, hfeed⟩
      · cases hcc : content with
        | nil => simpa [hlastc] using hr
        | cons d ds =>
          rw [List.getLast?_append_of_ne_nil _ (by simp), ← hcc]
          exact hret hlf
    have hall : ProperLines (ls ++ [⟨last.content ++ content, ending⟩]) :=
      hp.left.append ⟨hnew, by simp, trivial⟩ (.inl hp.ended_left)
    rw [← lines_flatten hall]
    simp [htext, Line.chars]

/-! ## 3. The pieces that are cut off

Every line that is no assignment is a piece of its own.  An assignment makes an entry of its line,
of the lines up to the one on which its string is closed, or of those up to the one on which its
brackets balance; each has to be read as that entry in front of any text.
-/

/-- Three quotes are of one of the two kinds. -/
theorem tripleQuote?_cases {text : List Char} {quote : Char} (h : tripleQuote? text = some quote) :
    quote = '"' ∨ quote = '\'' := by
  unfold tripleQuote? at h
  split at h
  · exact .inl (Option.some.inj h).symm
  · split at h
    · exact .inr (Option.some.inj h).symm
    · simp at h

/-- What stands behind a value does not make it a multi-line string. -/
theorem tripleQuote?_tail {value gap comment : List Char} (ht : IsTail gap comment) :
    tripleQuote? (value ++ gap ++ comment) = tripleQuote? value := by
  have hd := ht.head_ne (d := '"') (by decide) (by decide)
  have hs := ht.head_ne (d := '\'') (by decide) (by decide)
  rw [List.append_assoc]
  generalize gap ++ comment = tail at hd hs
  -- a value of less than three characters does not have three quotes, and what follows it begins
  -- with none; in any other the three are its own
  match value with
  | [] => exact tripleQuote?_eq_none hd hs
  | [a] =>
    simp [tripleQuote?, beginsWith, after?, after?_eq_none hd, after?_eq_none hs]
  | [a, b] =>
    simp [tripleQuote?, beginsWith, after?, after?_eq_none hd, after?_eq_none hs]
  | a :: b :: c :: rest => exact tripleQuote?_congr _ _

/-- A value begins as its line does behind the lead, a comment apart. -/
theorem Assignment.Formed.startsIn_body {a : Assignment} (h : a.Formed) {p : Char → Bool}
    (hp : p '#' = false) : startsIn p (a.value ++ a.gap ++ a.comment) = startsIn p a.value := by
  cases hv : a.value with
  | cons c rest => rfl
  -- an empty value has no gap behind it, so only a comment can stand there
  | nil =>
    cases hg : a.gap with
    | cons c rest =>
      have h1 := h.start c (by simp [hv, hg])
      have h2 := h.tail.gap c (by simp [hg])
      simp [h1] at h2
    | nil =>
      cases hc : a.comment with
      | nil => rfl
      | cons c rest =>
        obtain rfl := h.tail.comment c (by simp [hc])
        exact hp

/-- The entry of an assignment, if its value ends on its line. -/
def Assignment.entry (a : Assignment) (rest : List Char) : Entry :=
  ⟨a.key, a.lead, a.value, a.gap ++ a.comment ++ rest⟩

theorem Assignment.entry_text (a : Assignment) (rest : List Char) :
    (a.entry rest).text = a.chars ++ rest := by
  simp [Assignment.entry, Entry.text, Assignment.chars]

/-- **An assignment whose value is a single line is an entry.**  It opens nothing, so the scan
goes on behind its line; and since its pieces fit, the line is a place for a literal. -/
theorem reads_line {line : Line} {a : Assignment} (hp : line.Proper)
    (hk : classify line.content = .assignment a)
    (ht : tripleQuote? (a.value ++ a.gap ++ a.comment) = none)
    (hb : startsIn (fun c => c == '[' || c == '{') (a.value ++ a.gap ++ a.comment) = false)
    (behind : List Char) : (a.entry line.ending.chars).Reads behind := by
  obtain ⟨hf, hchars⟩ := classify_eq_assignment_iff.mp hk
  have htext : (a.entry line.ending.chars).text = line.content ++ line.ending.chars := by
    rw [a.entry_text, hchars]
  have hlines : lines (a.entry line.ending.chars).text = [line] := by
    rw [htext, lines_line hp]
  refine ⟨standBefore_line hlines fun b hb' => ?_, ⟨line, [], a, hlines, hk, rfl, rfl, ?_⟩,
    fun _ => ⟨a.gap, a.comment, line.ending, rfl, hf.lead, hf.tail, ?_, fun hlf => ?_⟩⟩
  · obtain rfl := LineKind.assignment.inj (hb'.symm.trans hk)
    exact ofAssignment_of_closed ht hb _ _
  · have hv : tripleQuote? a.value = none := by rw [← tripleQuote?_tail hf.tail, ht]
    simp [wholeValue?, hv, Assignment.entry]
  · have := hp.noFeed
    rw [← hchars] at this
    simp only [Assignment.chars, List.mem_append, not_or] at this
    simp only [Assignment.entry, List.mem_append, not_or]
    exact ⟨this.1.1.1, this.1.2, this.2⟩
  -- a carriage return at the end of the line would be at the end of the gap and the comment
  · have := hp.noReturn hlf
    rw [← hchars, Assignment.chars, List.append_assoc] at this
    cases hg : a.gap ++ a.comment with
    | nil => simp
    | cons c rest =>
      rw [hg, List.getLast?_append_of_ne_nil _ (by simp)] at this
      exact this

/-- **An assignment of a bracketed value is an entry** with the lines up to where the brackets
balance; its value is never replaced, as a literal in its place would leave the other lines
behind. -/
theorem reads_brackets {line : Line} {ls : List Line} {a : Assignment}
    (hp : ProperLines (line :: ls)) (hk : classify line.content = .assignment a)
    (ht : tripleQuote? (a.value ++ a.gap ++ a.comment) = none)
    (hb : startsIn (fun c => c == '[' || c == '{') (a.value ++ a.gap ++ a.comment) = true)
    {taken rest : List Line}
    (htake : takeBrackets (bracketBalance .outside (a.value ++ a.gap ++ a.comment)) ls
      = (taken, rest)) {behind : List Char} (hend : rest = [] → behind = []) :
    (a.entry (line.ending.chars ++ taken.flatMap Line.chars)).Reads behind := by
  obtain ⟨hf, hchars⟩ := classify_eq_assignment_iff.mp hk
  have happend := takeBrackets_append
    (bracketBalance .outside (a.value ++ a.gap ++ a.comment)) ls
  rw [htake] at happend
  simp only at happend
  have hlines : lines (a.entry (line.ending.chars ++ taken.flatMap Line.chars)).text
      = line :: taken := by
    have hp' : ProperLines (line :: taken) := by
      rw [← happend, ← List.cons_append] at hp
      exact hp.left
    rw [← lines_flatten hp', a.entry_text, hchars]
    simp [Line.chars]
  have htriple : tripleQuote? a.value = none := by rw [← tripleQuote?_tail hf.tail, ht]
  refine ⟨fun offset => ?_, ⟨line, taken, a, hlines, hk, rfl, rfl, ?_⟩, fun hin => ?_⟩
  -- the lines that are taken continue the value, whatever stands behind them
  · have hrun := scanLines_brackets (offset + byteLength line.chars)
      (bracketBalance .outside (a.value ++ a.gap ++ a.comment)) ls (lines behind)
      fun hr => by rw [htake] at hr; rw [hend hr]; rfl
    rw [htake] at hrun
    have htext : byteLength (a.entry (line.ending.chars ++ taken.flatMap Line.chars)).text
        = byteLength line.chars + byteLength (taken.flatMap Line.chars) := by
      rw [a.entry_text, hchars]
      simp [Line.chars]
      omega
    rw [hlines, List.cons_append, scanLines, hk, together, hk]
    simp only [Pending.ofAssignment, ht, hb, if_true]
    rw [hrun, htext, Nat.add_assoc]
    rfl
  · simp [wholeValue?, htriple, Assignment.entry]
  -- the value opens a bracket, so it is not replaced
  · rw [hf.startsIn_body rfl] at hb
    simp [isInline, Assignment.entry, hb] at hin

/-- What follows a closed string begins as what followed it. -/
theorem head?_append_congr {front a b : List Char} (h : front = [] → a = b) :
    (front ++ a).head? = (front ++ b).head? := by
  cases front with
  | nil => rw [h rfl]
  | cons c rest => rfl

/-- A text that ends with a line end, or nothing that follows it. -/
theorem getLast?_ending (text : List Char) {ending : LineEnd} {more : List Char}
    (h : ending = .none → more = []) :
    (text ++ ending.chars).getLast? = some '\n' ∨ more = [] := by
  cases ending with
  | none => exact .inr (h rfl)
  | lf | crlf =>
    refine .inl ?_
    rw [List.getLast?_append_of_ne_nil _ (by simp [LineEnd.chars])]
    rfl

/-- A multi-line string with the rest of the line on which it is closed. -/
structure StringEnd where
  value : List Char
  content : List Char
  ending : LineEnd

/-- What can be cut off a text as a string and the rest of a line. -/
structure StringEnd.Cut (c : StringEnd) : Prop where
  last : c.value.getLast? = some '"' ∨ c.value.getLast? = some '\''
  feed : '\n' ∉ c.content
  ret : c.ending = .lf → c.content.getLast? ≠ some '\r'

/-- The rest of the line. -/
def StringEnd.rest (c : StringEnd) : List Char := c.content ++ c.ending.chars

/-- The lines of a string: all but the last lie within it, and it ends on the last one.  It ends
in a quote, which is neither a line feed nor a carriage return, so the rest of the line goes on
with that last line. -/
theorem StringEnd.Cut.exists_lines {c : StringEnd} (h : c.Cut) (lead : List Char) :
    ∃ front part, part ≠ [] ∧ lead ++ c.value = front.flatMap Line.chars ++ part
      ∧ lines (lead ++ c.value ++ c.rest) = front ++ [⟨part ++ c.content, c.ending⟩] := by
  have hne : c.value ≠ [] := by
    intro hn
    rcases h.last with hl | hl <;> simp [hn] at hl
  have hlast : (lead ++ c.value).getLast? = c.value.getLast? :=
    List.getLast?_append_of_ne_nil _ hne
  rcases h.last with hl | hl
  · exact lines_append_content (hlast.trans hl) (by decide) (by decide) h.feed h.ret
  · exact lines_append_content (hlast.trans hl) (by decide) (by decide) h.feed h.ret

/-- A string cut off proper lines takes whole lines, the first of them first. -/
theorem StringEnd.Cut.lines_eq {c : StringEnd} {lead more : List Char} {line : Line}
    {ls : List Line} (hp : ProperLines (line :: ls))
    (htext : lead ++ c.value ++ c.rest ++ more = (line :: ls).flatMap Line.chars) (hne : lead ≠ [])
    (hmore : c.ending = .none → more = []) :
    ∃ tail, lines (lead ++ c.value ++ c.rest) = line :: tail := by
  have hcut : lines (lead ++ c.value ++ c.rest ++ more)
      = lines (lead ++ c.value ++ c.rest) ++ lines more := by
    refine lines_append ?_
    rw [StringEnd.rest, ← List.append_assoc]
    exact getLast?_ending _ hmore
  rw [htext, lines_flatten hp] at hcut
  cases hl : lines (lead ++ c.value ++ c.rest) with
  | nil =>
    have := flatten_lines (lead ++ c.value ++ c.rest)
    rw [hl] at this
    simp_all
  | cons l tail =>
    rw [hl, List.cons_append, List.cons.injEq] at hcut
    exact ⟨tail, by rw [hcut.1]⟩

/-- **A string is scanned to its end,** whatever stands behind its last line. -/
theorem StringEnd.Cut.standBefore {c : StringEnd} (h : c.Cut) {a : Assignment} {line : Line}
    {tail : List Line} (hl : lines (a.lead ++ c.value ++ c.rest) = line :: tail)
    (hk : classify line.content = .assignment a) {behind : List Char}
    (ht : (tripleQuote? (a.value ++ a.gap ++ a.comment)).isSome = true)
    (hclose : splitMultiline? (c.value ++ (c.rest ++ behind)) = some (c.value, c.rest ++ behind)) :
    StandBefore (a.lead ++ c.value ++ c.rest) behind := by
  obtain ⟨-, hchars⟩ := classify_eq_assignment_iff.mp hk
  obtain ⟨front, part, hpart, hfront, hlines⟩ := h.exists_lines a.lead
  have htext : (line :: tail).flatMap Line.chars = a.lead ++ c.value ++ c.rest := by
    rw [← hl, flatten_lines]
  have hbody : a.value ++ a.gap ++ a.comment ++ line.ending.chars
      ++ (tail ++ lines behind).flatMap Line.chars = c.value ++ (c.rest ++ behind) := by
    have := congrArg (· ++ behind) htext
    rw [← List.append_cancel_left_eq a.lead]
    simpa [Line.chars, ← hchars, Assignment.chars, flatten_lines] using this
  -- up to the end of the string there are the lines in front of the last one, and a part of that
  have hlen : byteLength a.lead + byteLength c.value
      = byteLength (front.flatMap Line.chars) + byteLength part := by
    rw [← byteLength_append, hfront, byteLength_append]
  have hpart0 : 0 < byteLength part := by
    cases part with
    | nil => exact absurd rfl hpart
    | cons d ds =>
      have := d.utf8Size_pos
      rw [byteLength_cons]
      omega
  intro offset
  have hrun := scanLines_pastLine (hlines.symm.trans hl) hpart0 (by simp) (lines behind)
    (offset + byteLength line.chars)
  obtain ⟨quote, ht⟩ := Option.isSome_iff_exists.mp ht
  rw [hl, List.cons_append, scanLines, hk, together, hk]
  simp only [Pending.ofAssignment, ht, hbody, hclose, hlen]
  rw [hrun, ← htext]
  simp [Nat.add_assoc]

/-- The rest of the line behind a multi-line string, taken as a gap and a comment. -/
theorem StringEnd.Cut.isTail {c : StringEnd} (h : c.Cut)
    (ht : (tripleQuote? c.value).isSome = true) {behind : List Char}
    (hend : c.ending = .none → behind = [])
    (hin : isInline c.value (c.rest ++ behind) = true) :
    IsTail (c.content.takeWhile isGap) (c.content.dropWhile isGap) := by
  refine ⟨fun d hd => forall_takeWhile hd, fun d hd => ?_⟩
  have hne : c.content ≠ [] := fun hn => by simp [hn] at hd
  have hl : lines (c.rest ++ behind) = ⟨c.content, c.ending⟩ :: lines behind := by
    rw [StringEnd.rest, lines_append (getLast?_ending c.content hend),
      lines_line ⟨h.feed, h.ret, fun _ => hne⟩]
    rfl
  -- behind the gap of that line nothing may stand but a comment
  simp only [isInline, hl, Bool.and_eq_true, Option.isNone_iff_eq_none, Bool.or_eq_true] at hin
  rcases hin.2 with hn | hrest
  · simp [hn] at ht
  · cases hdrop : c.content.dropWhile isGap with
    | nil => simp [hdrop] at hd
    | cons e es =>
      rw [hdrop] at hrest hd
      obtain rfl : e = d := by simpa using hd
      simpa [startsIn] using hrest

/-- **An assignment of a multi-line string is an entry** with the rest of the line on which the
string is closed.  The string is closed at the same place in front of any text, since the rest of
its line already decides it; only where that line has no end and no content could the text behind
it add a quote, and there nothing follows. -/
theorem reads_multiline {line : Line} {ls : List Line} {a : Assignment} {c : StringEnd}
    {more : List Char} (hp : ProperLines (line :: ls)) (hk : classify line.content = .assignment a)
    (hs : splitMultiline? (a.value ++ a.gap ++ a.comment ++ line.ending.chars
      ++ ls.flatMap Line.chars) = some (c.value, c.rest ++ more))
    (ht : (tripleQuote? (a.value ++ a.gap ++ a.comment)).isSome = true)
    (hc : c.Cut) (hmore : c.ending = .none → more = []) {behind : List Char}
    (hend : c.ending = .none → behind = []) :
    (Entry.mk a.key a.lead c.value c.rest).Reads behind := by
  obtain ⟨hf, hchars⟩ := classify_eq_assignment_iff.mp hk
  obtain ⟨hvalue, quote, hquote, -, inner, hopen⟩ := splitMultiline?_eq_some hs
  have hlead : a.lead ≠ [] := by
    obtain ⟨left, gap, h, -⟩ := hf.lead
    simp [h]
  have htext : a.lead ++ c.value ++ c.rest ++ more = (line :: ls).flatMap Line.chars := by
    simp only [List.flatMap_cons, Line.chars, ← hchars, Assignment.chars]
    simpa using hvalue.symm
  obtain ⟨tail, hl⟩ := StringEnd.Cut.lines_eq hp htext hlead hmore
  -- the next character behind the string is the same in front of any text
  have hclose : splitMultiline? (c.value ++ (c.rest ++ behind))
      = some (c.value, c.rest ++ behind) := by
    refine splitMultiline?_congr hs (head?_append_congr fun hn => ?_)
    have he : c.ending = .none := by
      cases he : c.ending with
      | none => rfl
      | lf | crlf => simp [StringEnd.rest, he, LineEnd.chars] at hn
    rw [hend he, hmore he]
  have hav : (tripleQuote? a.value).isSome = true := by rwa [← tripleQuote?_tail hf.tail]
  have hcv : (tripleQuote? c.value).isSome = true := by
    rw [hvalue, hopen] at hquote
    rw [hopen, tripleQuote?_congr inner (inner ++ (c.rest ++ more))]
    exact Option.isSome_of_eq_some hquote
  refine ⟨hc.standBefore hl hk ht hclose, ⟨line, tail, a, hl, hk, rfl, rfl, ?_⟩, fun hin => ?_⟩
  · obtain ⟨q, hq⟩ := Option.isSome_iff_exists.mp hav
    simp only [wholeValue?, hq, Assignment.valueStart, Entry.text, List.append_assoc,
      splitAt?_byteLength, hclose, Option.map_some]
  -- where the string can be replaced, a gap and a comment stand behind it
  · have htail := hc.isTail hcv hend hin
    refine ⟨_, _, c.ending, ?_, hf.lead, htail, ?_, fun hlf => ?_⟩
    · simp [StringEnd.rest]
    · have := hp.1.noFeed
      rw [← hchars] at this
      simp only [Assignment.chars, List.mem_append, not_or] at this
      simp only [List.takeWhile_append_dropWhile, List.mem_append, not_or]
      exact ⟨this.1.1.1, hc.feed⟩
    · simpa using hc.ret hlf

/-- **An assignment whose string is never closed** takes everything; no value is found in it.  So
the rest of the document is fixed text, in which nothing can be replaced. -/
theorem reads_endless {line : Line} {ls : List Line} {a : Assignment}
    (hp : ProperLines (line :: ls)) (hk : classify line.content = .assignment a)
    (ht : (tripleQuote? (a.value ++ a.gap ++ a.comment)).isSome = true)
    (hs : splitMultiline? (a.value ++ a.gap ++ a.comment ++ line.ending.chars
      ++ ls.flatMap Line.chars) = none) :
    (Piece.fixed ((line :: ls).flatMap Line.chars)).Reads [] := by
  obtain ⟨hf, hchars⟩ := classify_eq_assignment_iff.mp hk
  refine ⟨fun offset => ?_, fun l tail b hl hb => ?_⟩
  · obtain ⟨quote, hq⟩ := Option.isSome_iff_exists.mp ht
    rw [lines_flatten hp, List.cons_append, scanLines, hk, together, hk]
    simp only [Pending.ofAssignment, hq, lines, List.append_nil, hs, scanLines_endless]
    simp [scanLines]
  · rw [lines_flatten hp] at hl
    obtain ⟨rfl, rfl⟩ := List.cons.inj hl
    obtain rfl := LineKind.assignment.inj (hk.symm.trans hb)
    obtain ⟨quote, hq⟩ := Option.isSome_iff_exists.mp (by rwa [tripleQuote?_tail hf.tail] at ht)
    have htext : (line :: ls).flatMap Line.chars ++ []
        = a.lead ++ (a.value ++ a.gap ++ a.comment ++ line.ending.chars
          ++ ls.flatMap Line.chars) := by
      simp [Line.chars, ← hchars, Assignment.chars]
    simp only [wholeValue?, hq, htext, Assignment.valueStart, splitAt?_byteLength, hs,
      Option.map_none]

/-! ## 4. Cutting a whole text

The text gets shorter with every piece, so the induction is on its length.  The first piece is cut
off by what its first line is, and it may be followed by what is left, or nothing is left.
-/

/-- A text whose first piece is cut off falls into pieces if what is left does. -/
theorem exists_segmented_append {p : Piece} {rest : List Char}
    (hr : ∀ behind, (rest = [] → behind = []) → p.Reads behind) (hf : rest = [] ∨ p.Followed)
    (ih : ∃ ps, textOf ps = rest ∧ Segmented ps) :
    ∃ ps, textOf ps = p.text ++ rest ∧ Segmented ps := by
  by_cases hrest : rest = []
  · exact ⟨[p], by simp [hrest], fun behind h => hr behind fun _ => h rfl, .inl rfl, trivial⟩
  · obtain ⟨ps, hps, hseg⟩ := ih
    exact ⟨p :: ps, by simp [hps], fun behind _ => hr behind fun hn => absurd hn hrest,
      .inr (hf.resolve_left hrest), hseg⟩

/-- Lines are followed by nothing or end in a line feed. -/
theorem getLast?_lines {ls rest : List Line} (hp : ProperLines (ls ++ rest)) (hne : ls ≠ []) :
    rest.flatMap Line.chars = [] ∨ (ls.flatMap Line.chars).getLast? = some '\n' := by
  rcases List.eq_nil_or_concat ls with rfl | ⟨init, last, rfl⟩
  · exact absurd rfl hne
  · rw [List.concat_eq_append, List.append_assoc] at hp
    have hnone : last.ending = .none → rest.flatMap Line.chars = [] := by
      intro he
      have hrest : rest = [] := hp.right.2.1 he
      simp [hrest]
    have := getLast?_ending (init.flatMap Line.chars ++ last.content) hnone
    simpa [Line.chars, List.concat_eq_append] using this.symm

/-- A line is not empty, its end taken with it. -/
theorem chars_ne_nil {line : Line} (h : line.Proper) : line.chars ≠ [] := by
  cases he : line.ending with
  | none => simp [Line.chars, h.nonempty he]
  | lf | crlf => simp [Line.chars, he, LineEnd.chars]

/-- A text that ends as it does behind a beginning. -/
theorem getLast?_of_append {front text : List Char} {c : Char} (hne : text ≠ [])
    (h : (front ++ text).getLast? = some c) : text.getLast? = some c := by
  rwa [List.getLast?_append_of_ne_nil _ hne] at h

/-- A line that is no assignment is a piece. -/
theorem reads_other {line : Line} (hp : line.Proper)
    (hk : ∀ a, classify line.content ≠ .assignment a) (behind : List Char) :
    (Piece.fixed line.chars).Reads behind := by
  have hl : lines line.chars = [line] := lines_line hp
  refine ⟨standBefore_line hl fun a ha => absurd ha (hk a), fun l ls a hl' ha => ?_⟩
  obtain ⟨rfl, -⟩ := List.cons.inj (hl.symm.trans hl')
  exact absurd ha (hk a)

/-- **The first piece of a text.**  It is found by the kind of the first line: no assignment, an
assignment of a multi-line string that is never closed or closed somewhere, of a value of one
line, or of brackets.  In each case a lemma above says that it is read on its own; what is left
to show is that text may follow it. -/
theorem exists_piece {line : Line} {ls : List Line} (hp : ProperLines (line :: ls)) :
    ∃ (p : Piece) (rest : List Char), (line :: ls).flatMap Line.chars = p.text ++ rest
      ∧ p.text ≠ [] ∧ (∀ behind, (rest = [] → behind = []) → p.Reads behind)
      ∧ (rest = [] ∨ p.Followed) := by
  -- a line that is no assignment
  by_cases hk : ∀ a, classify line.content ≠ .assignment a
  · exact ⟨.fixed line.chars, ls.flatMap Line.chars, rfl, chars_ne_nil hp.1,
      fun behind _ => reads_other hp.1 hk behind,
      (getLast?_ending line.content fun he => by simp [hp.2.1 he]).symm⟩
  · obtain ⟨a, hk⟩ : ∃ a, classify line.content = .assignment a := by simpa using hk
    obtain ⟨hf, hchars⟩ := classify_eq_assignment_iff.mp hk
    have hlead : a.lead ≠ [] := by
      obtain ⟨left, gap, h, -⟩ := hf.lead
      simp [h]
    cases ht : tripleQuote? (a.value ++ a.gap ++ a.comment) with
    | some quote =>
      have ht' : (tripleQuote? (a.value ++ a.gap ++ a.comment)).isSome = true := by rw [ht]; rfl
      -- the string is closed somewhere, or it takes all that is left
      cases hs : splitMultiline? (a.value ++ a.gap ++ a.comment ++ line.ending.chars
          ++ ls.flatMap Line.chars) with
      | none =>
        refine ⟨.fixed ((line :: ls).flatMap Line.chars), [], by simp [Piece.text],
          by simp [Piece.text, chars_ne_nil hp.1], fun behind h => ?_, .inl rfl⟩
        rw [h rfl]
        exact reads_endless hp hk ht' hs
      | some parts =>
        obtain ⟨value, behind⟩ := parts
        -- the rest of the line on which it is closed belongs to the entry
        obtain ⟨content, ending, more, rfl, hfeed, hret, hmore⟩ := exists_firstLine behind
        obtain ⟨hvalue, q, hq, hlast, -⟩ := splitMultiline?_eq_some hs
        have hcut : StringEnd.Cut ⟨value, content, ending⟩ := by
          refine ⟨?_, hfeed, hret⟩
          rcases tripleQuote?_cases hq with rfl | rfl
          · exact .inl hlast
          · exact .inr hlast
        refine ⟨.entry ⟨a.key, a.lead, value, content ++ ending.chars⟩, more, ?_,
          by simp [Piece.text, Entry.text, hlead],
          fun behind h => reads_multiline (c := ⟨value, content, ending⟩) hp hk hs ht' hcut hmore
            fun he => h (hmore he), (getLast?_ending content hmore).symm⟩
        simp only [List.flatMap_cons, Line.chars, ← hchars, Assignment.chars, Piece.text,
          Entry.text]
        simpa using hvalue
    | none =>
      -- no multi-line string, so a value of this line or one in brackets
      cases hb : startsIn (fun c => c == '[' || c == '{') (a.value ++ a.gap ++ a.comment) with
      | false =>
        refine ⟨.entry (a.entry line.ending.chars), ls.flatMap Line.chars, ?_,
          by simp [Piece.text, Entry.text, Assignment.entry, hlead],
          fun behind _ => reads_line hp.1 hk ht hb behind, ?_⟩
        · rw [Piece.text, a.entry_text, hchars]
          rfl
        · exact (getLast?_ending (a.gap ++ a.comment) fun he => by simp [hp.2.1 he]).symm
      | true =>
        rcases htake : takeBrackets (bracketBalance .outside (a.value ++ a.gap ++ a.comment)) ls
          with ⟨taken, rest⟩
        have happend := takeBrackets_append
          (bracketBalance .outside (a.value ++ a.gap ++ a.comment)) ls
        rw [htake] at happend
        simp only at happend
        refine ⟨.entry (a.entry (line.ending.chars ++ taken.flatMap Line.chars)),
          rest.flatMap Line.chars, ?_, by simp [Piece.text, Entry.text, Assignment.entry, hlead],
          fun behind h => reads_brackets hp hk ht hb htake fun hr => h (by simp [hr]), ?_⟩
        · rw [Piece.text, a.entry_text, hchars, ← happend]
          simp [Line.chars]
        -- without an end the line is the last one, so nothing is left behind it
        · by_cases he : line.ending = .none
          · have : rest = [] := (List.append_eq_nil_iff.mp (happend.trans (hp.2.1 he))).2
            exact .inl (by simp [this])
          · rw [← happend, ← List.cons_append] at hp
            refine (getLast?_lines hp (by simp)).imp id fun hlast => ?_
            have hend : line.ending.chars ≠ [] := by
              cases hc : line.ending <;> simp_all [LineEnd.chars]
            have hrest : (a.lead ++ a.value ++ (a.entry (line.ending.chars
                ++ taken.flatMap Line.chars)).rest).getLast? = some '\n' := by
              simpa [Line.chars, ← hchars, Assignment.chars, Assignment.entry] using hlast
            exact getLast?_of_append (by simp [Assignment.entry, hend]) hrest

/-- **Every document falls into pieces.**  So what is shown of documents in pieces holds of every
text, also of one that is no document of TOML. -/
theorem exists_segmented (text : List Char) : ∃ ps, textOf ps = text ∧ Segmented ps := by
  induction hn : text.length using Nat.strongRecOn generalizing text with
  | ind n ih =>
    subst hn
    have hp := properLines_lines text
    have ht := flatten_lines text
    cases hl : lines text with
    | nil =>
      rw [hl] at ht
      exact ⟨[], by simpa using ht, trivial⟩
    | cons line ls =>
      rw [hl] at hp ht
      obtain ⟨p, rest, htext, hne, hr, hf⟩ := exists_piece hp
      rw [ht] at htext
      -- the piece is not empty, so what is left is shorter
      have hlt : rest.length < text.length := by
        have := List.length_pos_of_ne_nil hne
        rw [htext, List.length_append]
        omega
      rw [htext]
      exact exists_segmented_append hr hf (ih _ hlt rest rfl)

end TomlKeep
