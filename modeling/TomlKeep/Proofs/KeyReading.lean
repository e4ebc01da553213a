/-
# Keys, read twice

The key in front of a value, and the key of a header, are read twice: by the grammar and by the
path reader.  Both read the same text, and what the grammar takes for a key is a key for the path
reader as well (`exists_isKey`).

The names agree unless the key has an escape that only the grammar knows, such as a code point:
they are the same if and only if the text has no such escape (`sharedEscapes`).
-/
import TomlKeep.Proofs.Keys
import TomlKeep.Proofs.Strings

namespace TomlKeep

open Text Toml

/-! ## 1. Escapes

The grammar knows more escapes than the path reader, which drops the backslash of those that it does
not know.  Whether an escape is shared is asked of the text, not of the two names, so the condition
can be checked before anything is read; that it says no more and no less than that the names agree
is the result of this section.
-/

/-- Whether both readers take an escape for the same character. -/
def isSharedEscape (c : Char) : Bool := shortEscape? c == some (unescapeKeyChar c)

/-- Whether every escape in double quotes is shared. -/
def sharedEscapes : Quoting → List Char → Bool
  | _, [] => true
  | .single, c :: rest => sharedEscapes (if c = '\'' then .outside else .single) rest
  | .double, '\\' :: c :: rest => isSharedEscape c && sharedEscapes .double rest
  | .double, c :: rest => sharedEscapes (if c = '"' then .outside else .double) rest
  | .outside, c :: rest =>
    if c = '"' then sharedEscapes .double rest
    else if c = '\'' then sharedEscapes .single rest
    else sharedEscapes .outside rest

/-- A text without characters has no escapes. -/
theorem sharedEscapes_nil (place : Quoting) : sharedEscapes place [] = true := by
  cases place <;> rfl

/-- Outside quotes a quote opens a string, and nothing is an escape. -/
theorem sharedEscapes_outside_cons (c : Char) (rest : List Char) :
    sharedEscapes .outside (c :: rest) =
      if c = '"' then sharedEscapes .double rest
      else if c = '\'' then sharedEscapes .single rest
      else sharedEscapes .outside rest :=
  rfl

/-- In single quotes nothing is an escape. -/
theorem sharedEscapes_single_cons (c : Char) (rest : List Char) :
    sharedEscapes .single (c :: rest)
      = sharedEscapes (if c = '\'' then .outside else .single) rest :=
  rfl

/-- In double quotes a backslash makes an escape of the next character. -/
theorem sharedEscapes_double_hidden (c : Char) (rest : List Char) :
    sharedEscapes .double ('\\' :: c :: rest) = (isSharedEscape c && sharedEscapes .double rest) :=
  rfl

/-- In double quotes only a backslash begins an escape. -/
theorem sharedEscapes_double_cons {c : Char} (hc : c ≠ '\\') (rest : List Char) :
    sharedEscapes .double (c :: rest)
      = sharedEscapes (if c = '"' then .outside else .double) rest := by
  rw [sharedEscapes]
  intro d more he _
  exact hc he

/-- The escapes of a string in double quotes are those of its body. -/
theorem sharedEscapes_double {body : List Char} (h : QuotedBody body) (rest : List Char) :
    sharedEscapes .double (body ++ '"' :: rest)
      = (sharedEscapes .double body && sharedEscapes .outside rest) := by
  induction h with
  | nil => simp [sharedEscapes_double_cons, sharedEscapes_nil]
  | char h1 h2 _ ih => simp [sharedEscapes_double_cons h2, h1, ih]
  | hidden _ ih => simp [sharedEscapes_double_hidden, ih, Bool.and_assoc]

/-- A string in single quotes has none. -/
theorem sharedEscapes_single {body : List Char} (h : '\'' ∉ body) (rest : List Char) :
    sharedEscapes .single (body ++ '\'' :: rest) = sharedEscapes .outside rest := by
  induction body with
  | nil => simp [sharedEscapes_single_cons]
  | cons c body ih =>
    simp only [List.mem_cons, not_or] at h
    simp [sharedEscapes_single_cons, Ne.symm h.1, ih h.2]

/-- The escapes of a text are those of its parts. -/
theorem sharedEscapes_append {p : Char → Bool} {text : List Char} (h : Outside p text)
    (rest : List Char) : sharedEscapes .outside (text ++ rest)
      = (sharedEscapes .outside text && sharedEscapes .outside rest) := by
  induction h with
  | nil => simp [sharedEscapes_nil]
  | char h1 h2 _ _ ih => simp [sharedEscapes_outside_cons, h1, h2, ih]
  | double h _ ih =>
    simp only [List.cons_append, List.append_assoc, sharedEscapes_outside_cons, if_true]
    rw [sharedEscapes_double h, sharedEscapes_double h, ih, Bool.and_assoc]
  | single h _ ih =>
    have hne : ('\'' : Char) ≠ '"' := by decide
    simp only [List.cons_append, List.append_assoc, sharedEscapes_outside_cons, if_neg hne, if_true]
    rw [sharedEscapes_single h, sharedEscapes_single h, ih]

/-- Text without quotes has no escapes. -/
theorem sharedEscapes_plain {text : List Char} (h : ∀ c ∈ text, c ≠ '"' ∧ c ≠ '\'')
    (rest : List Char) :
    sharedEscapes .outside (text ++ rest) = sharedEscapes .outside rest := by
  induction text with
  | nil => rfl
  | cons c text ih =>
    obtain ⟨⟨h1, h2⟩, ht⟩ := List.forall_mem_cons.mp h
    rw [List.cons_append, sharedEscapes_outside_cons, if_neg h1, if_neg h2, ih ht]

/-- Neither has a gap. -/
theorem sharedEscapes_gap {gap : List Char} (h : IsGapText gap) (rest : List Char) :
    sharedEscapes .outside (gap ++ rest) = sharedEscapes .outside rest := by
  refine sharedEscapes_plain (fun c hc => ?_) rest
  obtain ⟨-, h1, h2, -⟩ := IsGapText.not_quote (h c hc)
  exact ⟨h1, h2⟩

/-- A long escape. -/
theorem basicBody?_long {c : Char} {digits : Nat} (hs : shortEscape? c = none)
    (hl : longEscape? c = some digits) (rest : List Char) :
    basicBody? false .plain ('\\' :: c :: rest) = basicBody? false (.code digits 0) rest := by
  simp [basicBody?, hs, hl]

/-- A string is at most as long as the path reader makes it: all the digits of a long escape
stand for one character.  The same is said of a body that begins in the middle of an escape,
where even the character of the escape is counted on the side of the grammar. -/
theorem length_le_unescapeKey {body rest behind : List Char} (h : QuotedBody body) :
    (∀ {s}, basicBody? false .plain (body ++ '"' :: rest) = some (s, behind) →
      s.length ≤ (unescapeKey body).length)
    ∧ ∀ {left value s}, basicBody? false (.code left value) (body ++ '"' :: rest)
      = some (s, behind) →
      s.length ≤ (unescapeKey body).length := by
  -- a character is pushed in front of what the rest of the body stands for
  have pushed {c d : Char} {text more s : List Char}
      (htext : unescapeKey text = c :: unescapeKey more)
      (hmore : ∀ {s}, basicBody? false .plain (more ++ '"' :: rest) = some (s, behind) →
        s.length ≤ (unescapeKey more).length)
      (hs : pushBefore d (basicBody? false .plain (more ++ '"' :: rest)) = some (s, behind)) :
      s.length ≤ (unescapeKey text).length := by
    obtain ⟨s', rfl, hs'⟩ := pushBefore_eq_some hs
    have := hmore hs'
    rw [htext, List.length_cons, List.length_cons]
    omega
  have hquote : Numeral.isDigitOf 16 '"' = false := by decide
  have hback : Numeral.isDigitOf 16 '\\' = false := by decide
  induction h with
  | nil =>
    refine ⟨fun hs => ?_, fun hs => ?_⟩
    · obtain ⟨rfl, -⟩ := Prod.mk.inj (Option.some.inj hs)
      exact Nat.le_refl 0
    · simp [basicBody?, hquote] at hs
  | @char c text h1 h2 _ ih =>
    have htext := unescapeKey_char h2 text
    refine ⟨fun hs => ?_, fun {left value s} hs => ?_⟩
    · rw [List.cons_append, basicBody?_char h1 h2] at hs
      split at hs
      · exact pushed htext ih.1 hs
      · cases hs
    · rw [List.cons_append, basicBody?] at hs
      split at hs
      · simp only at hs
        split at hs
        · split at hs
          · exact pushed htext ih.1 hs
          · cases hs
        · have := ih.2 hs
          rw [htext, List.length_cons]
          omega
      · cases hs
  | @hidden c text _ ih =>
    have htext : unescapeKey ('\\' :: c :: text) = unescapeKeyChar c :: unescapeKey text := rfl
    refine ⟨fun hs => ?_, fun hs => ?_⟩
    · rw [List.cons_append, List.cons_append] at hs
      -- a backslash: a short escape gives one character to both, a long one still needs its digits
      cases hshort : shortEscape? c with
      | some d =>
        rw [basicBody?_short hshort] at hs
        exact pushed htext ih.1 hs
      | none =>
        cases hlong : longEscape? c with
        | some digits =>
          rw [basicBody?_long hshort hlong] at hs
          have := ih.2 hs
          rw [htext, List.length_cons]
          omega
        | none => simp [basicBody?, hshort, hlong] at hs
    · simp [basicBody?, hback] at hs

/-- **The path reader reads the body of a string as the grammar does** if and only if its escapes
are shared.  At a short escape the two characters are compared; a long escape cannot agree even
by chance, since its digits are characters of the name for one reader and none for the other. -/
theorem unescapeKey_eq_iff {body rest behind s : List Char} (h : QuotedBody body)
    (hs : basicBody? false .plain (body ++ '"' :: rest) = some (s, behind)) :
    unescapeKey body = s ↔ sharedEscapes .double body = true := by
  induction h generalizing s with
  | nil =>
    obtain ⟨rfl, -⟩ := Prod.mk.inj (Option.some.inj hs)
    simp [unescapeKey, sharedEscapes_nil]
  | @char c text h1 h2 _ ih =>
    have hshared : sharedEscapes .double (c :: text) = sharedEscapes .double text := by
      simp [sharedEscapes_double_cons h2, h1]
    rw [List.cons_append, basicBody?_char h1 h2] at hs
    split at hs
    · obtain ⟨s', rfl, hs'⟩ := pushBefore_eq_some hs
      rw [unescapeKey_char h2, hshared, ← ih hs', List.cons.injEq, eq_self, true_and]
    · cases hs
  | @hidden c text hbody ih =>
    rw [List.cons_append, List.cons_append] at hs
    simp only [unescapeKey, sharedEscapes_double_hidden, isSharedEscape, Bool.and_eq_true,
      beq_iff_eq]
    cases hshort : shortEscape? c with
    | some d =>
      rw [basicBody?_short hshort] at hs
      obtain ⟨s', rfl, hs'⟩ := pushBefore_eq_some hs
      rw [← ih hs', List.cons.injEq, Option.some.injEq, eq_comm (a := d)]
    | none =>
      cases hlong : longEscape? c with
      | some digits =>
        -- the string is too short
        rw [basicBody?_long hshort hlong] at hs
        have hlength := (length_le_unescapeKey hbody).2 hs
        refine iff_of_false ?_ ?_
        · rintro rfl
          rw [List.length_cons] at hlength
          omega
        · rintro ⟨hknown, -⟩
          cases hknown
      | none => simp [basicBody?, hshort, hlong] at hs

/-! ## 2. Keys

The grammar takes a key part by part.  Each part stands in the text as a simple key in the sense of
the path reader, and the gaps around the dots are those that it allows too, so the whole is a key
for both.
-/

/-- A name that the grammar takes off a text stands there as a simple key, and the path reader
reads it so if the escapes are shared. -/
theorem exists_isSimpleKey {text rest : List Char} {part : String}
    (h : takeSimpleKey? text = some (part, rest)) : ∃ key name, text = key ++ rest
      ∧ IsSimpleKey key name ∧ (String.ofList name = part ↔ sharedEscapes .outside key = true) := by
  unfold takeSimpleKey? at h
  split at h
  · rcases takeQuoted?_eq_some h with ⟨body, chars, rfl, hq, hn, hs, rfl⟩ | ⟨body, rfl, hq, hn, rfl⟩
    · refine ⟨'"' :: (body ++ ['"']), unescapeKey body, by simp, isSimpleKey_double hq hn, ?_⟩
      have hshared : sharedEscapes .outside ('"' :: (body ++ ['"']))
          = sharedEscapes .double body := by
        rw [sharedEscapes_outside_cons, if_pos rfl, sharedEscapes_double hq, sharedEscapes_nil,
          Bool.and_true]
      rw [hshared, ← unescapeKey_eq_iff hq hs, String.ofList_inj]
    -- in single quotes, and without quotes below, the name is the text itself
    · refine ⟨'\'' :: (body ++ ['\'']), body, by simp, isSimpleKey_single hq hn, ?_⟩
      have hshared : sharedEscapes .outside ('\'' :: (body ++ ['\''])) = true := by
        rw [sharedEscapes_outside_cons, if_neg (by decide), if_pos rfl, sharedEscapes_single hq,
            sharedEscapes_nil]
      exact iff_of_true rfl hshared
  · simp only at h
    split at h
    · cases h
    · next hne =>
      obtain ⟨rfl, rfl⟩ := Prod.mk.inj (Option.some.inj h)
      refine ⟨_, _, List.takeWhile_append_dropWhile.symm,
        isSimpleKey_bare (by simpa using hne) fun c hc => forall_takeWhile hc, iff_of_true rfl ?_⟩
      have hplain : ∀ c ∈ text.takeWhile isBareKeyChar, c ≠ '"' ∧ c ≠ '\'' := fun c hc =>
        ⟨isBareKeyChar_ne (forall_takeWhile hc) (by decide),
          isBareKeyChar_ne (forall_takeWhile hc) (by decide)⟩
      have hshared := sharedEscapes_plain hplain []
      rwa [List.append_nil] at hshared

/-- The gap at the beginning of a text. -/
theorem exists_gap (text : List Char) : ∃ gap, IsGapText gap ∧ text = gap ++ text.dropWhile isGap :=
  ⟨text.takeWhile isGap, fun _ hc => forall_takeWhile hc, List.takeWhile_append_dropWhile.symm⟩

/-- **A path that the grammar takes off a text stands there as a key** between gaps, and the
names of the key are the parts of the path if and only if the escapes are shared.  What follows
does not begin with a gap, since the key takes the gap behind it. -/
theorem exists_isKey : ∀ {bound : Nat} {text rest : List Char} {path : List String},
    takeKey? bound text = some (path, rest) → ∃ before key after names,
      text = before ++ (key ++ after) ++ rest ∧ IsGapText before ∧ IsGapText after
        ∧ IsKey key names ∧ (names.map String.ofList = path ↔ sharedEscapes .outside key = true)
        ∧ ∀ c, rest.head? = some c → isGap c = false
  | 0, _, _, _, h => by cases h
  | bound + 1, text, rest, path, h => by
    rw [takeKey?_succ] at h
    obtain ⟨⟨part, behind⟩, hk, h⟩ := Option.bind_eq_some_iff.mp h
    obtain ⟨key, name, hkey, hs, hname⟩ := exists_isSimpleKey hk
    obtain ⟨front, hf, htext⟩ := exists_gap text
    obtain ⟨gap, hg, hbehind⟩ := exists_gap behind
    rw [hkey] at htext
    simp only at h
    split at h
    · next hdot =>
      obtain ⟨⟨parts, rest'⟩, hr, he⟩ := Option.map_eq_some_iff.mp h
      obtain ⟨rfl, rfl⟩ := Prod.mk.inj he
      obtain ⟨before, more, after, names, hmore, hb, ha, hm, hnames, hhead⟩ := exists_isKey hr
      rw [eq_cons_of_startsIn hdot, hmore] at hbehind
      refine ⟨front, key ++ (gap ++ '.' :: (before ++ more)), after, name :: names, ?_, hf, ha,
        hs.dot hg hb hm, ?_, hhead⟩
      · rw [htext, hbehind]
        simp
      -- the names are shared if those of this part and those of the others are
      · have hkeyout : Outside (fun _ => true) key := hs.outside _ fun _ _ => rfl
        have hshared : sharedEscapes .outside (key ++ (gap ++ '.' :: (before ++ more)))
            = (sharedEscapes .outside key && sharedEscapes .outside more) := by
          rw [sharedEscapes_append hkeyout, sharedEscapes_gap hg, sharedEscapes_outside_cons,
            if_neg (by decide), if_neg (by decide), sharedEscapes_gap hb]
        rw [hshared, Bool.and_eq_true, ← hname, ← hnames, List.map_cons, List.cons.injEq]
    · obtain ⟨rfl, rfl⟩ := Prod.mk.inj (Option.some.inj h)
      refine ⟨front, key, gap, [name], ?_, hf, hg, hs.isKey, by simp [hname], fun c hc => ?_⟩
      · rw [List.append_assoc, List.append_assoc, ← hbehind, ← htext]
      · have := List.head?_dropWhile_not isGap behind
        rw [hc] at this
        simpa using this

/-! ## 3. Headers

A header is read with a match on two brackets before one.  Once the number of brackets is a function
of the text (`headerBrackets`), a header of either kind is its brackets with a key between.
-/

/-- Reading a header is reading a key between brackets. -/
theorem takeHeader?_eq (text : List Char) : takeHeader? text
    = (takeKey? maxKeyParts
        (text.drop (headerBrackets (beginsWith ['[', '['] text) '[').length)).bind
      fun (path, behind) =>
        (after? (headerBrackets (beginsWith ['[', '['] text) ']') behind).map fun rest =>
          (.header path (beginsWith ['[', '['] text), rest) := by
  unfold takeHeader?
  -- two brackets at the beginning are those of an array of tables, and so are two at the end
  cases ha : after? ['[', '['] text with
  | some inner =>
    have hb : beginsWith ['[', '['] text = true := by simp [beginsWith, ha]
    have hd : text.drop 2 = inner := by rw [after?_eq_some_iff.mp ha]; rfl
    simp only [hb, headerBrackets, if_true, List.length_cons, List.length_nil, hd]
    rcases takeKey? maxKeyParts inner with _ | ⟨path, behind⟩
    · rfl
    · rcases behind with _ | ⟨c, _ | ⟨d, behind⟩⟩
      · rfl
      · by_cases hc : ']' = c <;> simp [after?, hc]
      · by_cases hc : ']' = c
        · subst hc
          by_cases hd : ']' = d
          · subst hd
            rfl
          · simp [after?, hd, Ne.symm hd]
        · simp [after?, hc, Ne.symm hc]
  | none =>
    have hb : beginsWith ['[', '['] text = false := by simp [beginsWith, ha]
    simp only [hb, headerBrackets, Bool.false_eq_true, if_false, List.length_cons, List.length_nil]
    rcases takeKey? maxKeyParts (text.drop 1) with _ | ⟨path, _ | ⟨c, behind⟩⟩
    · rfl
    · rfl
    · by_cases hc : ']' = c
      · subst hc
        rfl
      · simp [after?, hc, Ne.symm hc]

/-- The opening brackets of a header stand at its beginning. -/
theorem eq_headerBrackets_append {text : List Char} (h : startsIn (· == '[') text = true) :
    text = headerBrackets (beginsWith ['[', '['] text) '['
      ++ text.drop (headerBrackets (beginsWith ['[', '['] text) '[').length := by
  cases hb : beginsWith ['[', '['] text with
  | false => exact eq_cons_of_startsIn h
  | true =>
    obtain ⟨rest, ha⟩ := Option.isSome_iff_exists.mp hb
    rw [after?_eq_some_iff.mp ha]
    rfl

/-- **A header that the grammar takes off a text** is a key in brackets, and it is taken in front
of any text that goes on the same way to the end of the line.  What the path reader makes of the
key comes with it, so that the scan can be compared. -/
theorem exists_header {text rest : List Char} {statement : Statement}
    (hs : startsIn (· == '[') text = true) (h : takeHeader? text = some (statement, rest)) :
    ∃ array path before key after names, statement = .header path array
      ∧ text = headerBrackets array '[' ++ (before ++ (key ++ after) ++ (headerBrackets array ']'
          ++ rest))
      ∧ IsGapText before ∧ IsGapText after ∧ IsKey key names
      ∧ (names.map String.ofList = path ↔ sharedEscapes .outside key = true)
      ∧ ∀ other, SameLine rest other →
        takeHeader? (headerBrackets array '['
          ++ (before ++ (key ++ after) ++ (headerBrackets array ']'
          ++ other))) = some (.header path array, other) := by
  rw [takeHeader?_eq] at h
  obtain ⟨⟨path, behind⟩, hk, h⟩ := Option.bind_eq_some_iff.mp h
  obtain ⟨rest', hr, he⟩ := Option.map_eq_some_iff.mp h
  obtain ⟨rfl, rfl⟩ := Prod.mk.inj he
  obtain ⟨before, key, after, names, hkey, hb, ha, hi, hn, -⟩ := exists_isKey hk
  obtain ⟨piece, hp, hl⟩ := local_takeKey? maxKeyParts hk
  have htext := eq_headerBrackets_append hs
  have hbehind := after?_eq_some_iff.mp hr
  generalize hw : beginsWith ['[', '['] text = array at *
  -- the piece that is taken locally is the key with its gaps
  obtain rfl : before ++ (key ++ after) = piece := List.append_cancel_right (hkey.symm.trans hp)
  refine ⟨array, path, before, key, after, names, rfl, by rw [htext, hkey, hbehind], hb, ha, hi, hn,
    fun other ho => ?_⟩
  have hsame : SameLine behind (headerBrackets array ']' ++ other) := by
    rw [hbehind]
    exact ho.append _
  have hline : SameLine text (headerBrackets array '[' ++ (before ++ (key ++ after)
      ++ (headerBrackets array ']' ++ other))) := by
    rw [htext, hkey]
    exact (hsame.append _).append _
  have hstop : '\n' ∉ ['[', '['] ∧ '=' ∉ ['[', '['] := by decide
  have hclose : after? (headerBrackets array ']') (headerBrackets array ']' ++ other)
      = some other :=
    after?_eq_some_iff.mpr rfl
  rw [takeHeader?_eq, ← hline.beginsWith hstop.1 hstop.2, hw, List.drop_left, hl _ hsame]
  simp only [Option.bind_some, hclose, Option.map_some]

end TomlKeep
