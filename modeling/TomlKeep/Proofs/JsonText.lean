/-
# JSON that is written is read

What is read of a value that was written is the value itself but for two things (`reread?`): a
float is what its text is read as, and what nests deeper than a reader goes is not read at all.
This holds for compact and for indented text, whatever ends it (`readsWritten`, `read?_write`).

The readers of items and of members are one reader of things between commas (`takeSeparated?`).
-/
import TomlKeep.Proofs.JsonNumbers
import TomlKeep.Proofs.OneLine

namespace TomlKeep.Json

open Text Numeral

/-! ## 1. Strings

What is written of a character depends on the character alone, and so does what is read; hence a
string is read back character by character, and the closing quote is the first that is not escaped.
-/

/-- The digits that codes are written with are those they are read with. -/
theorem digit_lowerHexDigit : ∀ n < 16, isDigitOf 16 (lowerHexDigit n) = true
    ∧ digitValue (lowerHexDigit n) = n := by decide

/-- **How a character is written:** by a short escape, by its code, or as it is. -/
theorem escapeChar_cases (c : Char) :
    (∃ d, escapeChar c = ['\\', d] ∧ shortEscape? d = some c)
      ∨ (c.toNat < 0x20 ∧ escapeChar c
        = ['\\', 'u', '0', '0', lowerHexDigit (c.toNat / 16), lowerHexDigit (c.toNat % 16)])
      ∨ (c ≠ '"' ∧ c ≠ '\\' ∧ ¬ c.toNat < 0x20 ∧ escapeChar c = [c]) := by
  -- the seven short escapes in turn, the control characters, and all others
  unfold escapeChar
  split
  · next h => exact .inl ⟨_, rfl, by rw [h]; rfl⟩
  split
  · next h => exact .inl ⟨_, rfl, by rw [h]; rfl⟩
  split
  · next h => exact .inl ⟨_, rfl, by rw [h]; rfl⟩
  split
  · next h => exact .inl ⟨_, rfl, by rw [h]; rfl⟩
  split
  · next h => exact .inl ⟨_, rfl, by rw [h]; rfl⟩
  split
  · next h => exact .inl ⟨_, rfl, by rw [h]; rfl⟩
  split
  · next h => exact .inl ⟨_, rfl, by rw [h]; rfl⟩
  split
  · next h => exact .inr (.inl ⟨h, rfl⟩)
  · next h1 h2 _ _ _ _ _ h3 => exact .inr (.inr ⟨h1, h2, h3, rfl⟩)

/-- A control character is read from its code.  Its code has two digits that count, and is no
half of a pair. -/
theorem stringBody?_code {c : Char} (h : c.toNat < 0x20) (rest : List Char) :
    stringBody? .plain
        (['\\', 'u', '0', '0', lowerHexDigit (c.toNat / 16), lowerHexDigit (c.toNat % 16)] ++ rest)
      = pushBefore c (stringBody? .plain rest) := by
  obtain ⟨hd1, hv1⟩ := digit_lowerHexDigit (c.toNat / 16) (by omega)
  obtain ⟨hd2, hv2⟩ := digit_lowerHexDigit (c.toNat % 16) (by omega)
  have hvalue : c.toNat / 16 * 16 + c.toNat % 16 = c.toNat := by omega
  have hhigh : isHighHalf c.toNat = false := by
    simp only [isHighHalf, Bool.and_eq_false_iff, decide_eq_false_iff_not]
    omega
  have hlow : isLowHalf c.toNat = false := by
    simp only [isLowHalf, Bool.and_eq_false_iff, decide_eq_false_iff_not]
    omega
  have hzero : isDigitOf 16 '0' = true ∧ digitValue '0' = 0 := by decide
  have hu : shortEscape? 'u' = none := by decide
  simp [stringBody?, hu, hzero, hd1, hv1, hd2, hv2, hvalue, hhigh, hlow, Char.ofNat_toNat]

/-- **A character is read as it was written.** -/
theorem stringBody?_escapeChar (c : Char) (rest : List Char) :
    stringBody? .plain (escapeChar c ++ rest) = pushBefore c (stringBody? .plain rest) := by
  obtain ⟨d, he, hd⟩ | ⟨hc, he⟩ | ⟨h1, h2, h3, he⟩ := escapeChar_cases c
  · simp [he, stringBody?, hd]
  · rw [he, stringBody?_code hc]
  · simp [he, stringBody?, h1, h2, h3]

/-- **A string is read as it was written.** -/
theorem stringBody?_flatMap (rest : List Char) : ∀ text : List Char,
    stringBody? .plain (text.flatMap escapeChar ++ '"' :: rest) = some (text, rest)
  | [] => by simp [stringBody?]
  | c :: text => by
    rw [List.flatMap_cons, List.append_assoc, stringBody?_escapeChar, stringBody?_flatMap rest text]
    rfl

/-! ## 2. Things between commas

Arrays and objects are read alike: a thing, and then a comma and the next or the closing bracket.
The two readers are this one with different things, so what is said of it is said of both.
-/

section Separated

variable {α β : Type}

/-- Takes things with commas between them off a text, closing bracket included.  The bound is on
how many there may be. -/
def takeSeparated? (closing : Char) (element : List Char → Option (α × List Char)) :
    Nat → List Char → Option (List α × List Char)
  | 0, _ => none
  | bound + 1, text =>
    (element text).bind fun (a, text) =>
      match skipBlanks text with
      | [] => none
      | c :: behind =>
        if c = closing then some ([a], behind)
        else if c = ',' then
          (takeSeparated? closing element bound behind).map fun (more, behind) =>
            (a :: more, behind)
        else none

/-- Takes a member of an object off a text. -/
def takeMember? (item : List Char → Option (Json × List Char)) (text : List Char) :
    Option ((String × Json) × List Char) :=
  (takeName? text).bind fun (name, text) =>
    (item (skipBlanks text)).map fun (json, behind) => ((name, json), behind)

/-- The reader of items is the one of things between commas. -/
theorem takeItems?_eq (item : List Char → Option (Json × List Char)) : ∀ (bound : Nat)
    (text : List Char), takeItems? item bound text
      = takeSeparated? ']' (fun text => item (skipBlanks text)) bound text
  | 0, _ => rfl
  | bound + 1, text => by
    rw [takeItems?, takeSeparated?]
    rcases item (skipBlanks text) with _ | ⟨json, rest⟩
    · rfl
    simp only [Option.bind_some]
    rcases skipBlanks rest with _ | ⟨c, behind⟩
    · rfl
    by_cases hclose : c = ']'
    · simp [hclose]
    by_cases hcomma : c = ','
    · subst hcomma
      simp only [takeItems?_eq item bound behind, hclose, if_false, if_true]
      rcases takeSeparated? ']' (fun text => item (skipBlanks text)) bound behind
        with _ | ⟨more, tail⟩ <;> rfl
    · simp [hclose, hcomma]

/-- The reader of members is the one of things between commas, with a name in front of each. -/
theorem takeMembers?_eq (item : List Char → Option (Json × List Char)) : ∀ (bound : Nat)
    (text : List Char), takeMembers? item bound text
      = takeSeparated? '}' (takeMember? item) bound text
  | 0, _ => rfl
  | bound + 1, text => by
    rw [takeMembers?, takeSeparated?, takeMember?]
    rcases takeName? text with _ | ⟨name, rest⟩
    · rfl
    simp only [Option.bind_some]
    rcases item (skipBlanks rest) with _ | ⟨json, rest⟩
    · rfl
    simp only [Option.map_some, Option.bind_some]
    rcases skipBlanks rest with _ | ⟨c, behind⟩
    · rfl
    by_cases hclose : c = '}'
    · simp [hclose]
    by_cases hcomma : c = ','
    · subst hcomma
      simp only [takeMembers?_eq item bound behind, hclose, if_false, if_true]
      rcases takeSeparated? '}' (takeMember? item) bound behind with _ | ⟨more, tail⟩ <;> rfl
    · simp [hclose, hcomma]

/-- A text of blanks. -/
def IsBlankText (text : List Char) : Prop := ∀ c ∈ text, isJsonBlank c = true

/-- A line break with its indentation is blank, and so is none. -/
theorem isBlankText_lineBreak (indented : Bool) (level : Nat) :
    IsBlankText (lineBreak indented level) := by
  intro c hc
  cases indented with
  | true =>
    rcases List.mem_cons.mp hc with rfl | hc
    · rfl
    · obtain rfl := List.eq_of_mem_replicate hc
      rfl
  | false => cases hc

/-- Blanks in front of what is none are skipped. -/
theorem skipBlanks_append {gap : List Char} (hg : IsBlankText gap) {c : Char}
    (hc : isJsonBlank c = false) (rest : List Char) :
    skipBlanks (gap ++ c :: rest) = c :: rest := by
  refine (takeWhile_append_stop hg fun d hd => ?_).2
  obtain rfl : c = d := by simpa using hd
  exact hc

/-- A blank, a comma or a bracket ends a number. -/
theorem endsNumber_of_blank {c : Char} (hc : isJsonBlank c = true ∨ c = ',' ∨ c = ']' ∨ c = '}')
    (rest : List Char) : EndsNumber (c :: rest) := by
  rw [endsNumber_cons]
  rcases hc with hc | rfl | rfl | rfl
  · simp only [isJsonBlank, Bool.or_eq_true, beq_iff_eq] at hc
    rcases hc with ((rfl | rfl) | rfl) | rfl <;> decide
  · decide
  · decide
  · decide

/-- A number ends at the comma or the bracket behind it, also with a gap before that. -/
theorem endsNumber_append {gap : List Char} (hg : IsBlankText gap) {c : Char}
    (hc : c = ',' ∨ c = ']' ∨ c = '}') (rest : List Char) : EndsNumber (gap ++ c :: rest) := by
  cases gap with
  | nil => exact endsNumber_of_blank (.inr hc) rest
  | cons d gap => exact endsNumber_of_blank (.inl (hg d List.mem_cons_self)) _

variable {closing : Char} {element : List Char → Option (α × List Char)} {text : β → List Char}
  {read : β → Option α} {gap last : List Char}

/-- What stands behind the first of several things: the others, each behind a comma and a gap, and a
closing bracket. -/
def separatedTail (text : β → List Char) (gap last : List Char) (closing : Char) (rest : List Char)
    (more : List β) : List Char :=
  more.flatMap (fun b => ',' :: (gap ++ text b)) ++ (last ++ closing :: rest)

/-- What stands behind the first of several things ends a number. -/
theorem endsNumber_separatedTail (hc : closing = ']' ∨ closing = '}') (hl : IsBlankText last)
    (rest : List Char) (more : List β) :
    EndsNumber (separatedTail text gap last closing rest more) := by
  cases more with
  | nil => exact endsNumber_append hl (.inr hc) rest
  | cons b more => exact endsNumber_of_blank (.inr (.inl rfl)) _

/-- **Things with commas between them are taken one by one;** the first that cannot be read
spoils them all.  Each of them has to be read with what follows it still there, for anything that
may follow. -/
theorem takeSeparated?_written (hc : closing = ']' ∨ closing = '}') (hl : IsBlankText last)
    (rest : List Char) : ∀ (more : List β) (first : β),
      (∀ b ∈ first :: more, ∀ behind, EndsNumber behind →
        element (gap ++ (text b ++ behind)) = (read b).map (·, behind)) →
      ∀ bound, more.length < bound →
        takeSeparated? closing element bound
            (gap ++ (text first ++ separatedTail text gap last closing rest more))
          = ((first :: more).mapM read).map (·, rest)
  | _, _, _, 0, hb => absurd hb (Nat.not_lt_zero _)
  | [], first, hread, bound + 1, _ => by
    have hclosing : isJsonBlank closing = false := by rcases hc with rfl | rfl <;> rfl
    rw [takeSeparated?, hread first List.mem_cons_self _ (endsNumber_separatedTail hc hl rest [])]
    rcases hr : read first with _ | a
    · simp [hr]
    · simp [hr, separatedTail, skipBlanks_append hl hclosing]
  -- the first is taken, then its comma, and the others by the induction, with a bound one less
  | next :: more, first, hread, bound + 1, hb => by
    obtain ⟨hfirst, hmore⟩ := List.forall_mem_cons.mp hread
    have hcomma : ',' ≠ closing := by rcases hc with rfl | rfl <;> decide
    have ih := takeSeparated?_written hc hl rest more next hmore bound (Nat.lt_of_succ_lt_succ hb)
    have htail : separatedTail text gap last closing rest (next :: more)
        = ',' :: (gap ++ (text next ++ separatedTail text gap last closing rest more)) := by
      simp [separatedTail]
    rw [takeSeparated?, hfirst _ (endsNumber_separatedTail hc hl rest (next :: more)), htail]
    rcases hr : read first with _ | a
    · simp [hr]
    have hskip :
        skipBlanks (',' :: (gap ++ (text next ++ separatedTail text gap last closing rest more)))
        = ',' :: (gap ++ (text next ++ separatedTail text gap last closing rest more)) := rfl
    simp only [Option.map_some, Option.bind_some, hskip, hcomma, if_false, if_true, ih]
    rw [List.mapM_cons (a := first), hr]
    rcases (next :: more).mapM read with _ | results <;> rfl

end Separated

/-! ## 3. Scalars

A scalar is taken off a text in one step, by its first character.  What the writer makes of a scalar
is a word, a number or a string; a float that is not finite has the word for a null value.
-/

/-- **What is read of a value that was written,** if `levels` more brackets may open: a float is
what its text is read as, and a later member of an object replaces an earlier one of its name. -/
def reread? : Nat → Json → Option Json
  | _, .null => some .null
  | _, .bool b => some (.bool b)
  | _, .integer n => some (.integer n)
  | _, .float x => read? (writeFloat x)
  | _, .string s => some (.string s)
  | 0, .array _ => none
  | 0, .object _ => none
  | levels + 1, .array items => (items.mapM (reread? levels)).map .array
  | levels + 1, .object members =>
    (members.mapM fun m => (reread? levels m.2).map (m.1, ·)).map fun ms =>
      .object (Keyed.ofList ms)

/-- **The text of a scalar,** and what is read of it. -/
structure ScalarText (text : List Char) (json? : Option Json) : Prop where
  begun : ∃ c rest, text = c :: rest ∧ isJsonBlank c = false ∧ c ∉ ['[', ']', '{', '}']
  read : ∀ rest, EndsNumber rest → takeScalar? (text ++ rest) = json?.map (·, rest)

/-- The word for a null value. -/
theorem scalarText_null : ScalarText ['n', 'u', 'l', 'l'] (some .null) :=
  ⟨⟨_, _, rfl, by decide, by decide⟩, fun _ _ => rfl⟩

/-- The words for the truth values. -/
theorem scalarText_bool (b : Bool) : ScalarText (boolText b) (some (.bool b)) := by
  cases b with
  | true => exact ⟨⟨_, _, rfl, by decide, by decide⟩, fun _ _ => rfl⟩
  | false => exact ⟨⟨_, _, rfl, by decide, by decide⟩, fun _ _ => rfl⟩

/-- A string in its quotes. -/
theorem scalarText_string (s : String) : ScalarText (writeString s) (some (.string s)) := by
  refine ⟨⟨_, _, rfl, by decide, by decide⟩, fun rest _ => ?_⟩
  have hbody := stringBody?_flatMap rest s.toList
  simp [writeString, takeScalar?, hbody]

/-- A number that is well spelled.  It begins with a digit or a minus sign, so it is taken for no
word and no string. -/
theorem scalarText_number {s : Spelling} (h : s.Proper) : ScalarText s.text s.value? := by
  obtain ⟨c, rest, htext, hc⟩ := h.exists_text_cons
  have hne {d : Char} (hd : d.isDigit = false) (hminus : '-' ≠ d) : c ≠ d := by
    rcases hc with rfl | hc
    · exact hminus
    · exact isDigit_ne hc hd
  refine ⟨⟨c, rest, htext, ?_, ?_⟩, fun behind hb => ?_⟩
  · simp [isJsonBlank, hne (d := ' ') rfl (by decide), hne (d := '\t') rfl (by decide),
      hne (d := '\n') rfl (by decide), hne (d := '\r') rfl (by decide)]
  · simp [hne (d := '[') rfl (by decide), hne (d := ']') rfl (by decide),
      hne (d := '{') rfl (by decide), hne (d := '}') rfl (by decide)]
  · have htake := takeSpelling?_text h hb
    have hword {d : Char} (hd : c ≠ d) (more : List Char) :
        after? (d :: more) (s.text ++ behind) = none :=
      after?_eq_none (by simpa [htext] using hd)
    have hnull := hword (hne (d := 'n') rfl (by decide)) ['u', 'l', 'l']
    have htrue := hword (hne (d := 't') rfl (by decide)) ['r', 'u', 'e']
    have hfalse := hword (hne (d := 'f') rfl (by decide)) ['a', 'l', 's', 'e']
    have hquote : ∀ tail, s.text ++ behind ≠ '"' :: tail := by
      rw [htext]
      exact fun tail he => hne rfl (by decide) (List.cons.inj he).1
    rw [takeScalar?]
    · simp only [boolText, if_true, Bool.false_eq_true, if_false, hnull, htrue, hfalse, htake]
    · exact hquote

namespace ScalarText

variable {text : List Char} {json? : Option Json}

/-- A scalar is taken wherever a value is read, as it does not begin with a bracket. -/
theorem takeValue?_append (h : ScalarText text json?) (levels : Nat) {rest : List Char}
    (hr : EndsNumber rest) : takeValue? levels (text ++ rest) = json?.map (·, rest) := by
  rw [← h.read rest hr]
  obtain ⟨c, tail, rfl, -, hc⟩ := h.begun
  cases levels with
  | zero => rfl
  | succ levels =>
    rw [List.cons_append, takeValue?]
    · intro more he
      obtain ⟨rfl, -⟩ := List.cons.inj he
      simp at hc
    · intro more he
      obtain ⟨rfl, -⟩ := List.cons.inj he
      simp at hc

/-- No blank stands in front of a scalar. -/
theorem skipBlanks_append (h : ScalarText text json?) (rest : List Char) :
    skipBlanks (text ++ rest) = text ++ rest := by
  obtain ⟨c, tail, rfl, hc, -⟩ := h.begun
  simp [skipBlanks, hc]

/-- A scalar by itself. -/
theorem read?_eq (h : ScalarText text json?) : read? text = json? := by
  have htake := h.takeValue?_append maxNesting endsNumber_nil
  have hskip := h.skipBlanks_append []
  rw [List.append_nil] at htake hskip
  rw [read?, hskip, htake]
  cases json? <;> rfl

end ScalarText

/-- **The text of a float is read as it is read by itself.** -/
theorem scalarText_float (x : Binary64) : ScalarText (writeFloat x) (read? (writeFloat x)) := by
  -- a number or `null`; in either case something is read, and reading it by itself says what
  obtain ⟨json?, h⟩ : ∃ json?, ScalarText (writeFloat x) json? := by
    cases x with
    | finite negative rank =>
      obtain ⟨s, hs, htext, -⟩ := exists_spelling_finite negative rank.val
      have hwrite : writeFloat (.finite negative rank) = s.text := htext.symm
      exact ⟨s.value?, hwrite ▸ scalarText_number hs⟩
    | nan | infinite => exact ⟨_, scalarText_null⟩
  rwa [h.read?_eq]

/-- **A float is read as a float of its sign** if it is finite, and as `null` otherwise. -/
theorem eq_of_read?_writeFloat {x : Binary64} {json : Json} (h : read? (writeFloat x) = some json) :
    (∃ rank, x.isFinite = true ∧ json = .float (.finite x.negative rank))
      ∨ x.isFinite = false ∧ json = .null := by
  -- a finite float is a number with a fraction or an exponent
  cases x with
  | finite negative rank =>
    obtain ⟨s, hs, htext, hsign, hfloat⟩ := exists_spelling_finite negative rank.val
    have hwrite : writeFloat (.finite negative rank) = s.text := htext.symm
    rw [hwrite, (scalarText_number hs).read?_eq, value?_eq_float? hfloat] at h
    obtain ⟨rank', rfl⟩ := eq_finite_of_float? h
    exact .inl ⟨rank', rfl, by rw [hsign]; rfl⟩
  | nan | infinite =>
    refine .inr ⟨rfl, ?_⟩
    rw [writeFloat, if_neg (by simp [Binary64.isFinite]), scalarText_null.read?_eq] at h
    exact (Option.some.inj h).symm

/-- The text of a scalar value is that of a scalar. -/
theorem scalarText_write (indented : Bool) (level levels : Nat) {json : Json}
    (ha : ∀ items, json ≠ .array items) (ho : ∀ members, json ≠ .object members) :
    ScalarText (write indented level json) (reread? levels json) := by
  cases json with
  | null => simpa [write, reread?] using scalarText_null
  | bool b => simpa [write, reread?] using scalarText_bool b
  | integer n =>
    obtain ⟨s, hs, htext, hvalue⟩ := exists_spelling_integer n
    have h := scalarText_number hs
    rw [htext, hvalue] at h
    simpa [write, reread?] using h
  | float x => simpa [write, reread?] using scalarText_float x
  | string s => simpa [write, reread?] using scalarText_string s
  | array items => exact absurd rfl (ha items)
  | object members => exact absurd rfl (ho members)

/-! ## 4. Arrays and objects

The induction is on how many brackets may open.  A value within brackets is read with one less, and
the text that follows it is a comma or a closing bracket, so it ends a number as the induction asks.
-/

variable {indented : Bool} {level : Nat}

/-- Items are written one by one, each as it is by itself. -/
theorem writeItems_eq_map (items : List Json) :
    writeItems indented level items = items.map (write indented level) := by
  induction items with
  | nil => rfl
  | cons item rest ih => rw [writeItems, ih, List.map_cons]

/-- The text of a member. -/
def memberText (indented : Bool) (level : Nat) (m : String × Json) : List Char :=
  writeString m.1 ++ ':' :: ((if indented then [' '] else []) ++ write indented level m.2)

/-- Members likewise, each with its name. -/
theorem writeMembers_eq_map (members : List (String × Json)) :
    writeMembers indented level members = members.map (memberText indented level) := by
  induction members with
  | nil => rfl
  | cons m rest ih =>
    rw [writeMembers, ih, List.map_cons, memberText]
    simp

/-- Things in brackets that are not empty. -/
theorem bracketed_append {β : Type} (text : β → List Char) (opening closing : Char) (first : β)
    (more : List β) (rest : List Char) :
    bracketed indented level opening closing ((first :: more).map text) ++ rest
      = opening :: (lineBreak indented (level + 1) ++ (text first
        ++ separatedTail text (lineBreak indented (level + 1)) (lineBreak indented level) closing
          rest more)) := by
  simp [bracketed, separatedTail, List.flatMap_map]

/-- How a value begins: with no blank and no closing bracket. -/
theorem exists_write_cons (json : Json) : ∃ c rest, write indented level json = c :: rest
    ∧ isJsonBlank c = false ∧ c ≠ ']' := by
  -- an array, an object, or a scalar
  by_cases ha : ∃ items, json = .array items
  · obtain ⟨items, rfl⟩ := ha
    cases items <;> exact ⟨'[', _, rfl, by decide, by decide⟩
  by_cases ho : ∃ members, json = .object members
  · obtain ⟨members, rfl⟩ := ho
    cases members <;> exact ⟨'{', _, rfl, by decide, by decide⟩
  obtain ⟨⟨c, rest, hcons, hblank, hc⟩, -⟩ :=
    scalarText_write indented level 0 (not_exists.mp ha) (not_exists.mp ho)
  exact ⟨c, rest, hcons, hblank, by rintro rfl; simp at hc⟩

/-- Blanks in front of a value are skipped. -/
theorem skipBlanks_write {gap : List Char} (hg : IsBlankText gap) (json : Json) (rest : List Char) :
    skipBlanks (gap ++ (write indented level json ++ rest))
      = write indented level json ++ rest := by
  obtain ⟨c, tail, hcons, hc, -⟩ := @exists_write_cons indented level json
  rw [hcons, List.cons_append, skipBlanks_append hg hc]

/-- The name of a member is read as it was written, and its colon goes with it. -/
theorem takeName?_append {gap : List Char} (hg : IsBlankText gap) (name : String)
    (rest : List Char) :
    takeName? (gap ++ (writeString name ++ ':' :: rest)) = some (name, rest) := by
  have hskip : skipBlanks (gap ++ (writeString name ++ ':' :: rest))
      = '"' :: (name.toList.flatMap escapeChar ++ '"' :: (':' :: rest)) := by
    rw [writeString, List.cons_append, List.cons_append, skipBlanks_append hg (by decide)]
    simp
  have hcolon : skipBlanks (':' :: rest) = ':' :: rest := rfl
  simp [takeName?, hskip, stringBody?_flatMap, hcolon]

/-- **A member is read** if its value is. -/
theorem takeMember?_append {item : List Char → Option (Json × List Char)} {gap behind : List Char}
    (hg : IsBlankText gap) {m : String × Json} {json? : Option Json}
    (h : item (write indented level m.2 ++ behind) = json?.map (·, behind)) :
    takeMember? item (gap ++ (memberText indented level m ++ behind))
      = (json?.map (m.1, ·)).map (·, behind) := by
  have hblank : IsBlankText (if indented then [' '] else []) := by
    cases indented <;> simp [IsBlankText, isJsonBlank]
  have htext : memberText indented level m ++ behind = writeString m.1
      ++ ':' :: ((if indented then [' '] else []) ++ (write indented level m.2 ++ behind)) := by
    simp [memberText]
  rw [takeMember?, htext, takeName?_append hg, Option.bind_some]
  simp only [skipBlanks_write hblank, h]
  cases json? <;> rfl

/-- **Values are read as they were written,** as far as they can be, when `levels` brackets may
open. -/
def ReadsWritten (levels : Nat) : Prop :=
  ∀ (json : Json) (indented : Bool) (level : Nat) (rest : List Char), EndsNumber rest →
    takeValue? levels (write indented level json ++ rest) = (reread? levels json).map (·, rest)

/-- **Things in brackets,** one at least: the text behind the opening bracket begins with one of
them, and they are taken one by one. -/
theorem exists_bracketed {α β : Type} (text : β → List Char) (read : β → Option α)
    (element : List Char → Option (α × List Char)) (opening : Char) {closing : Char}
    (hc : closing = ']' ∨ closing = '}') (rest : List Char) {first : β} {more : List β}
    (hbegun : ∃ c tail, text first = c :: tail ∧ isJsonBlank c = false ∧ c ≠ closing)
    (hread : ∀ b ∈ first :: more, ∀ behind, EndsNumber behind →
      element (lineBreak indented (level + 1) ++ (text b ++ behind)) = (read b).map (·, behind)) :
    ∃ body, bracketed indented level opening closing ((first :: more).map text) ++ rest
      = opening :: body
      ∧ (∀ tail, skipBlanks body ≠ closing :: tail)
      ∧ takeSeparated? closing element body.length body
        = ((first :: more).mapM read).map (·, rest) := by
  refine ⟨_, bracketed_append text opening closing first more rest, fun tail he => ?_,
    takeSeparated?_written hc (isBlankText_lineBreak indented level) rest more first hread _ ?_⟩
  · obtain ⟨c, front, hcons, hblank, hne⟩ := hbegun
    rw [hcons, List.cons_append, skipBlanks_append (isBlankText_lineBreak _ _) hblank] at he
    exact hne (List.cons.inj he).1
  · -- each of the others has a comma
    have hflat : more.length
        ≤ (more.flatMap fun b => ',' :: (lineBreak indented (level + 1) ++ text b)).length := by
      clear hread
      induction more with
      | nil => exact Nat.zero_le _
      | cons b more ih =>
        simp only [List.flatMap_cons, List.length_append, List.length_cons]
        omega
    simp only [separatedTail, List.length_append, List.length_cons]
    omega

/-- The items of an array are read one level deeper. -/
theorem takeValue?_array {levels : Nat} (ih : ReadsWritten levels) (items : List Json)
    (indented : Bool) (level : Nat) (rest : List Char) :
    takeValue? (levels + 1) (write indented level (.array items) ++ rest)
      = (reread? (levels + 1) (.array items)).map (·, rest) := by
  -- an empty array is read as such; of any other the opening bracket is followed by an item
  rcases items with _ | ⟨first, more⟩
  · rfl
  obtain ⟨body, hbody, hopen, htake⟩ :=
    exists_bracketed (write indented (level + 1)) (reread? levels)
    (fun text => takeValue? levels (skipBlanks text)) '[' (.inl rfl) rest
    (exists_write_cons first) fun item _ behind hb => by
      rw [skipBlanks_write (isBlankText_lineBreak indented (level + 1))]
      exact ih item indented (level + 1) behind hb
  rw [write, writeItems_eq_map, hbody, takeValue?]
  split
  · next behind hskip => exact absurd hskip (hopen behind)
  · rw [takeItems?_eq, htake, reread?, Option.map_map, Option.map_map]
    rfl

/-- The members of an object are read one level deeper, and a name that stands twice gives one
member. -/
theorem takeValue?_object {levels : Nat} (ih : ReadsWritten levels) (members : List (String × Json))
    (indented : Bool) (level : Nat) (rest : List Char) :
    takeValue? (levels + 1) (write indented level (.object members) ++ rest)
      = (reread? (levels + 1) (.object members)).map (·, rest) := by
  rcases members with _ | ⟨first, more⟩
  · rfl
  obtain ⟨body, hbody, hopen, htake⟩ := exists_bracketed (memberText indented (level + 1))
    (fun m => (reread? levels m.2).map (m.1, ·)) (takeMember? (takeValue? levels)) '{' (.inr rfl)
    rest ⟨'"', _, rfl, by decide, by decide⟩ fun m _ behind hb =>
      takeMember?_append (isBlankText_lineBreak indented (level + 1)) (ih m.2 indented _ behind hb)
  rw [write, writeMembers_eq_map, hbody, takeValue?]
  split
  · next behind hskip => exact absurd hskip (hopen behind)
  · rw [takeMembers?_eq, htake, reread?, Option.map_map, Option.map_map]
    rfl

/-- **A value is read as it was written,** as far as it can be. -/
theorem readsWritten (levels : Nat) : ReadsWritten levels := by
  induction levels with
  | zero =>
    intro json indented level rest hr
    -- at no level may a bracket open, and what is read then is a scalar
    cases json with
    | array items => cases items <;> rfl
    | object members => cases members <;> rfl
    | _ => exact (scalarText_write indented level 0 (by simp) (by simp)).takeValue?_append 0 hr
  | succ levels ih =>
    intro json indented level rest hr
    cases json with
    | array items => exact takeValue?_array ih items indented level rest
    | object members => exact takeValue?_object ih members indented level rest
    | _ => exact (scalarText_write indented level _ (by simp) (by simp)).takeValue?_append _ hr

/-- **A value is read as it was written,** compact or indented and with a line end behind it:
arrays and objects as deep as a reader goes, and each float as its own text is read. -/
theorem read?_write (json : Json) (indented : Bool) {last : List Char} (hl : IsBlankText last) :
    read? (write indented 0 json ++ last) = reread? maxNesting json := by
  have hstart := @skipBlanks_write indented 0 [] (by simp [IsBlankText]) json last
  have hend : EndsNumber last := by
    cases last with
    | nil => exact endsNumber_nil
    | cons c last => exact endsNumber_of_blank (.inl (hl c List.mem_cons_self)) last
  -- nothing but blanks may stand behind the value
  have hskip : skipBlanks last = [] := List.dropWhile_eq_nil_iff.mpr hl
  rw [List.nil_append] at hstart
  rw [read?, hstart, readsWritten maxNesting json indented 0 last hend]
  rcases reread? maxNesting json with _ | result
  · rfl
  · simp [hskip]

end TomlKeep.Json
