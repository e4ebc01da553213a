/-
# Values of one line

A value of one line is found again by the line reader: it begins and ends where it should, the
comment behind it is cut off where it begins, and it opens neither a multi-line string nor a
bracket (`OneLine`).  Such a value may stand in the place of any other (`OneLine.formed`).

There are three kinds: an unquoted value (`oneLine_plain`), and a string in double or in single
quotes (`oneLine_double`, `oneLine_single`).
-/
import TomlKeep.Proofs.Shape
import TomlKeep.Scan

namespace TomlKeep

open Text

/-! ## 1. What may stand behind a value

Behind a value stands a gap, and behind that a comment or nothing.  So the next character is one of
a gap or a hash, and none that could go on with a string or open a bracket.
-/

/-- A text that begins otherwise does not begin so. -/
theorem after?_eq_none {c : Char} {start text : List Char} (h : text.head? ≠ some c) :
    after? (c :: start) text = none := by
  cases text with
  | nil => rfl
  | cons d rest => simp_all [after?, eq_comm]

/-- Without a quote in front there are no three. -/
theorem tripleQuote?_eq_none {text : List Char} (h1 : text.head? ≠ some '"')
    (h2 : text.head? ≠ some '\'') : tripleQuote? text = none := by
  simp [tripleQuote?, beginsWith, after?_eq_none h1, after?_eq_none h2]

/-- What stands behind a value begins with a gap or a hash. -/
theorem IsTail.head_ne {gap comment : List Char} (ht : IsTail gap comment) {d : Char}
    (hd : isGap d = false) (hc : d ≠ '#') : (gap ++ comment).head? ≠ some d := by
  cases gap with
  | nil => exact fun h => hc (ht.comment d h)
  | cons c rest =>
    intro h
    obtain rfl : c = d := by simpa using h
    exact absurd (ht.gap c (by simp)) (by simp [hd])

/-- A gap has no quote and no hash. -/
theorem IsTail.gap_ne {gap comment : List Char} (ht : IsTail gap comment) {c : Char}
    (hc : c ∈ gap) : c ≠ '"' ∧ c ≠ '\'' ∧ (c != '#') = true := by
  have := ht.gap c hc
  simp only [isGap, Bool.or_eq_true, beq_iff_eq] at this
  rcases this with rfl | rfl <;> decide

/-! ## 2. Values of one line

The conditions are those under which the scan takes the line for a whole entry: it has to cut the
value off where it ends, and it must not look for more of it on the lines below.
-/

/-- **A value of one line.**  It is not empty, neither begins nor ends in a gap, has no line feed
and no carriage return at its end, and opens nothing that goes on: the last two conditions say
this with whatever may stand behind it. -/
structure OneLine (value : List Char) : Prop where
  ne_nil : value ≠ []
  ends : ∀ c, value.head? = some c ∨ value.getLast? = some c → isGap c = false
  feed : '\n' ∉ value
  ret : value.getLast? ≠ some '\r'
  bracket : value.head? ≠ some '[' ∧ value.head? ≠ some '{'
  triple : ∀ gap comment, IsTail gap comment → tripleQuote? (value ++ gap ++ comment) = none
  cut : ∀ gap comment, IsTail gap comment →
    Assignment.splitComment (value ++ gap ++ comment) = (value ++ gap, comment)

namespace OneLine

variable {value : List Char}

/-- **A value of one line may stand in the place of a value.**  All that is asked of the other
pieces is what any assignment asks of them, so the value may come from elsewhere. -/
theorem formed (h : OneLine value) {lead gap comment : List Char} {key : KeyPath}
    (hl : IsLead key lead) (ht : IsTail gap comment) :
    (Assignment.mk key lead value gap comment).Formed := by
  refine ⟨hl, fun c hc => h.ends c (.inl ?_), fun c hc => h.ends c (.inr hc), ht,
    h.cut gap comment ht⟩
  simp only [List.append_assoc] at hc
  rwa [List.head?_append_of_ne_nil _ h.ne_nil] at hc

theorem startsIn_bracket (h : OneLine value) (rest : List Char) :
    startsIn (fun c => c == '[' || c == '{') (value ++ rest) = false := by
  obtain ⟨c, tail, rfl⟩ := List.exists_cons_of_ne_nil h.ne_nil
  have h1 := h.bracket.1
  have h2 := h.bracket.2
  simp_all [startsIn]

theorem tripleQuote? (h : OneLine value) : tripleQuote? value = none := by
  simpa using h.triple [] [] ⟨by simp, by simp⟩

end OneLine

/-! ## 3. The three kinds

An unquoted value holds no quote, no bracket and no hash, so the first hash behind it begins the
comment.  A string hides its hashes, so the comment is searched behind it; that it opens no
multi-line string is seen from its first three characters, where an empty string is the case that
needs what follows it.
-/

/-- A character of an unquoted value. -/
def isUnquotedChar (c : Char) : Bool :=
  !(c == '"' || c == '\'' || c == '[' || c == '{' || c == '#' || c == '\n' || c == '\r')

/-- A character of an unquoted value is none of those that are excluded. -/
theorem isUnquotedChar_ne {c d : Char} (h : isUnquotedChar c = true)
    (hd : isUnquotedChar d = false) : c ≠ d := by
  rintro rfl
  simp [h] at hd

/-- **Unquoted values.** -/
theorem oneLine_plain {value : List Char} (hne : value ≠ [])
    (h : ∀ c ∈ value, isUnquotedChar c = true)
    (hends : ∀ c, value.head? = some c ∨ value.getLast? = some c → isGap c = false) :
    OneLine value := by
  have ne {d : Char} (hd : isUnquotedChar d = false) : d ∉ value := by
    intro hm
    simp [h d hm] at hd
  -- what is excluded does not stand in front either, whatever follows the value
  have head {d : Char} (hd : isUnquotedChar d = false) (rest : List Char) :
      (value ++ rest).head? ≠ some d := by
    rw [List.head?_append_of_ne_nil _ hne]
    exact fun hc => ne hd (List.mem_of_mem_head? hc)
  refine ⟨hne, hends, ne (by decide), fun hc => ne (d := '\r') (by decide)
    (List.mem_of_mem_getLast? hc), ⟨?_, ?_⟩, fun gap comment ht => ?_, fun gap comment ht => ?_⟩
  · simpa using head (d := '[') (by decide) []
  · simpa using head (d := '{') (by decide) []
  · rw [List.append_assoc]
    exact tripleQuote?_eq_none (head (by decide) _) (head (by decide) _)
  -- it opens neither a string nor a bracket, so the first hash of the line is looked for
  · have hstart : ¬ startsIn Assignment.isQuotedStart (value ++ gap ++ comment) = true := by
      obtain ⟨c, rest, rfl⟩ := List.exists_cons_of_ne_nil hne
      have hc := h c (by simp)
      have h1 := isUnquotedChar_ne (d := '"') hc (by decide)
      have h2 := isUnquotedChar_ne (d := '\'') hc (by decide)
      have h3 := isUnquotedChar_ne (d := '[') hc (by decide)
      have h4 := isUnquotedChar_ne (d := '{') hc (by decide)
      simp [startsIn, Assignment.isQuotedStart, h1, h2, h3, h4]
    have hbody : '#' ∉ value ++ gap := by
      intro hm
      rcases List.mem_append.mp hm with hm | hm
      · exact ne (by decide) hm
      · exact absurd (ht.gap_ne hm).2.2 (by decide)
    exact splitComment_unquoted (Bool.eq_false_iff.mpr hstart) hbody ht.comment

/-- The comment behind a quoted value is cut off where it begins.  The search for it goes through
the value and the gap, in which there is no hash outside quotes. -/
theorem splitComment_quoted {value gap comment : List Char}
    (hs : ∀ rest, startsIn Assignment.isQuotedStart (value ++ rest) = true)
    (ho : Outside (· != '#') value) (ht : IsTail gap comment) :
    Assignment.splitComment (value ++ gap ++ comment) = (value ++ gap, comment) := by
  have hout := ho.append (outside_of_forall fun c hc => ht.gap_ne hc)
  have hfound (c : Char) (rest : List Char) (hc : (c != '#') = true) :
      startsIn (· == '#') (c :: rest) = false := by
    simpa [startsIn] using hc
  have hsplit := splitOutside?_outside hout hfound comment
  rw [Assignment.splitComment, List.append_assoc, if_pos (hs _), ← List.append_assoc, hsplit]
  cases comment with
  | nil => simp [splitOutside?]
  | cons c rest =>
    obtain rfl := ht.comment c rfl
    simp [splitOutside?, startsIn]

/-- **Strings in double quotes.** -/
theorem oneLine_double {body : List Char} (h : QuotedBody body) (hn : '\n' ∉ body) :
    OneLine ('"' :: (body ++ ['"'])) := by
  have hlast : ('"' :: (body ++ ['"'])).getLast? = some '"' := by
    rw [← List.cons_append, List.getLast?_concat]
  refine ⟨by simp, fun c hc => ?_, by simp [hn], by simp [hlast], by simp, fun gap comment ht => ?_,
    fun gap comment ht => splitComment_quoted (fun _ => rfl) (.double h .nil) ht⟩
  · obtain rfl : '"' = c := by
      rcases hc with hc | hc
      · simpa using hc
      · simpa [hlast] using hc
    decide
  · have hrest := ht.head_ne (d := '"') (by decide) (by decide)
    -- an empty string could be the beginning of three quotes; any other shows that it is none
    cases h with
    | nil => simp [TomlKeep.tripleQuote?, beginsWith, after?, after?_eq_none hrest]
    | char h1 _ _ => simp [TomlKeep.tripleQuote?, beginsWith, after?, Ne.symm h1]
    | hidden _ => simp [TomlKeep.tripleQuote?, beginsWith, after?]

/-- **Strings in single quotes.** -/
theorem oneLine_single {body : List Char} (h : '\'' ∉ body) (hn : '\n' ∉ body) :
    OneLine ('\'' :: (body ++ ['\''])) := by
  have hlast : ('\'' :: (body ++ ['\''])).getLast? = some '\'' := by
    rw [← List.cons_append, List.getLast?_concat]
  refine ⟨by simp, fun c hc => ?_, by simp [hn], by simp [hlast], by simp, fun gap comment ht => ?_,
    fun gap comment ht => splitComment_quoted (fun _ => rfl) (.single h .nil) ht⟩
  · obtain rfl : '\'' = c := by
      rcases hc with hc | hc
      · simpa using hc
      · simpa [hlast] using hc
    decide
  · have hrest := ht.head_ne (d := '\'') (by decide) (by decide)
    -- as for double quotes
    cases body with
    | nil => simp [TomlKeep.tripleQuote?, beginsWith, after?, after?_eq_none hrest]
    | cons c body =>
      simp only [List.mem_cons, not_or] at h
      simp [TomlKeep.tripleQuote?, beginsWith, after?, h.1]

end TomlKeep
