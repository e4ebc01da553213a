/-
# Lines by offsets

Every cut and every look that the reading of a line by offsets (`Offsets`) makes is at an offset
of the line, and what is read is what the pieces say (`classify?_eq`).

Each search begins at the length of what stands in front, so it is stated of a text `front ++
rest` at `byteLength front` and compared with the search of `rest` in pieces.  A search that is
taken up again, for a word (`findUnquoted?_append`) or for the next bracket
(`bracketDelta?_append`), moves characters from `rest` to `front`.
-/
import TomlKeep.Proofs.Offsets

namespace TomlKeep.ByOffset

open Text

/-! ## 1. Cuts

A cut at the length of a piece gives the piece.  All offsets of a line are such lengths, so these
three lemmas are all that is needed of cuts.
-/

/-- The text behind what stands in front. -/
theorem from?_append (front rest : List Char) :
    from? (byteLength front) (front ++ rest) = some rest := by
  rw [from?, splitAt?_byteLength]
  rfl

/-- The text up to what stands behind. -/
theorem upTo?_append (front rest : List Char) :
    upTo? (byteLength front) (front ++ rest) = some front := by
  rw [upTo?, splitAt?_byteLength]
  rfl

/-- The text between the two. -/
theorem between?_append (before inside behind : List Char) :
    between? (byteLength before) (byteLength before + byteLength inside)
        (before ++ inside ++ behind)
      = some inside := by
  rw [between?, span?_append]
  rfl

/-! ## 2. Searches

A search by offsets and one in pieces go through the same characters with the same knowledge of
quotes.  They differ in one point: the search in pieces takes a backslash with the character it
hides, and the search by offsets notes that one character is hidden.
-/

/-- The flags of a search that has come to a place. -/
def flagsOf : Quoting → Flags
  | .outside => ⟨false, false, false⟩
  | .single => ⟨false, true, false⟩
  | .double => ⟨true, false, false⟩

/-- What a split finds, by its offset; the text that is split begins at `i`. -/
def foundAt? (i : Nat) (split : Option (List Char × List Char)) : Option (Nat × Char) :=
  split.bind fun parts => parts.2.head?.map fun c => (i + byteLength parts.1, c)

/-- The first character moves where the rest begins. -/
theorem foundAt?_pushBefore (i : Nat) (c : Char) (split : Option (List Char × List Char)) :
    foundAt? i (pushBefore c split) = foundAt? (i + c.utf8Size) split := by
  rcases split with _ | ⟨before, suffix⟩
  · rfl
  · simp [foundAt?, pushBefore, Nat.add_assoc]

/-- **A search by offsets finds what a search in pieces finds.** -/
theorem seek_eq (stop : Char → Bool) (state : Quoting) (text : List Char) :
    ∀ i, seek stop (flagsOf state) i text
      = foundAt? i (splitOutside? (startsIn stop) state text) := by
  -- by the cases of the search in pieces
  fun_induction splitOutside? (startsIn stop) state text with
  | case1 state => exact fun i => rfl
  | case2 c rest ih =>
    intro i
    rw [foundAt?_pushBefore, ← ih]
    by_cases hc : c = '\''
    · simp [seek, flagsOf, hc]
    · simp [seek, flagsOf, hc]
  | case3 c rest ih =>
    intro i
    rw [foundAt?_pushBefore, foundAt?_pushBefore, ← ih]
    simp [seek, flagsOf]
  | case4 c rest hhide ih =>
    intro i
    rw [foundAt?_pushBefore, ← ih]
    by_cases hc : c = '\\'
    · -- a backslash at the end hides nothing
      subst hc
      cases rest with
      | nil => simp [seek, flagsOf]
      | cons d rest => exact absurd rfl (hhide d rest rfl)
    · by_cases hq : c = '"'
      · simp [seek, flagsOf, hq]
      · simp [seek, flagsOf, hc, hq]
  | case5 rest ih =>
    intro i
    rw [foundAt?_pushBefore, ← ih]
    simp [seek, flagsOf]
  | case6 rest _ ih =>
    intro i
    rw [foundAt?_pushBefore, ← ih]
    simp [seek, flagsOf]
  | case7 c rest hd hs hfound =>
    intro i
    simp [seek, flagsOf, hd, hs, foundAt?, show stop c = true from hfound]
  | case8 c rest hd hs hfound ih =>
    intro i
    rw [foundAt?_pushBefore, ← ih]
    simp [seek, flagsOf, hd, hs, show ¬ stop c = true from hfound]

/-- A search from an offset on finds what the search of the rest does. -/
theorem scanQuoted?_append (stop : Char → Bool) (front rest : List Char) :
    scanQuoted? stop (front ++ rest) (byteLength front)
      = some (foundAt? (byteLength front) (splitOutside? (startsIn stop) .outside rest)) := by
  have hflags : Flags.outside = flagsOf .outside := rfl
  rw [scanQuoted?, from?_append, Option.map_some, hflags, seek_eq]

/-- What a search for one character finds begins with it. -/
theorem exists_of_splitOutside? {stop : Char → Bool} {state : Quoting}
    {text before suffix : List Char}
    (h : splitOutside? (startsIn stop) state text = some (before, suffix)) :
    ∃ c rest, suffix = c :: rest ∧ stop c = true ∧ text = before ++ c :: rest := by
  have hfound := found_of_splitOutside? h
  cases suffix with
  | nil => simp [startsIn] at hfound
  | cons c rest => exact ⟨c, rest, rfl, hfound, (append_of_splitOutside? h).symm⟩

/-- What a search for a word makes of a place where its first letter stands: the word is there,
or the search goes on behind the letter. -/
def resume (first : Char) (more : List Char) (parts : List Char × List Char) :
    Option (List Char × List Char) :=
  if beginsWith (first :: more) parts.2 then some parts
  else pushText (parts.1 ++ [first])
    (splitOutside? (beginsWith (first :: more)) .outside parts.2.tail)

/-- What is made of the place does not depend on what stands in front. -/
theorem bind_resume_pushBefore (first : Char) (more : List Char) (c : Char)
    (split : Option (List Char × List Char)) :
    (pushBefore c split).bind (resume first more)
      = pushBefore c (split.bind (resume first more)) := by
  rcases split with _ | ⟨before, suffix⟩
  · rfl
  · have hpush : pushBefore c (some (before, suffix)) = some (c :: before, suffix) := rfl
    rw [hpush, Option.bind_some, Option.bind_some, resume, resume]
    split
    · rfl
    · exact (pushBefore_pushText c (before ++ [first]) _).symm

/-- **A search for a word is a search for its first letter,** taken up again where the word is not
there. -/
theorem splitOutside?_word (first : Char) (more : List Char) (state : Quoting) (text : List Char) :
    splitOutside? (beginsWith (first :: more)) state text
      = (splitOutside? (startsIn (· == first)) state text).bind (resume first more) := by
  fun_induction splitOutside? (startsIn (· == first)) state text with
  | case1 state => cases state <;> rfl
  | case2 c rest ih => rw [splitOutside?, ih, bind_resume_pushBefore]
  | case3 c rest ih => rw [splitOutside?, ih, bind_resume_pushBefore, bind_resume_pushBefore]
  | case4 c rest hhide ih => rw [splitOutside?, ih, bind_resume_pushBefore]; exact hhide
  | case5 rest ih => rw [splitOutside?, if_pos rfl, ih, bind_resume_pushBefore]
  | case6 rest hd ih => rw [splitOutside?, if_neg hd, if_pos rfl, ih, bind_resume_pushBefore]
  | case7 c rest hd hs hfound =>
    -- the first letter stands here, and the word does or does not
    obtain rfl : c = first := beq_iff_eq.mp hfound
    rw [splitOutside?, if_neg hd, if_neg hs, Option.bind_some, resume]
    split
    · rfl
    · rw [pushBefore_eq_pushText, List.nil_append, List.tail_cons]
  | case8 c rest hd hs hfound ih =>
    have hc : c ≠ first := fun e => hfound (beq_iff_eq.mpr e)
    have hnone : beginsWith (first :: more) (c :: rest) = false := by
      simp [beginsWith, after?, Ne.symm hc]
    rw [splitOutside?, if_neg hd, if_neg hs, hnone, if_neg Bool.false_ne_true, ih,
      bind_resume_pushBefore]

/-- Without its first letter there is no word. -/
theorem findUnquoted?_of_none {first : Char} {more text : List Char} {start : Nat}
    (h : scanQuoted? (· == first) text start = some none) :
    findUnquoted? first more text start = some none := by
  rw [findUnquoted?]
  split <;> simp_all

/-- The search for a word by offsets, where its first letter is found. -/
theorem findUnquoted?_of_some {first c : Char} {more text rest : List Char} {start i : Nat}
    (h : scanQuoted? (· == first) text start = some (some (i, c))) (hr : from? i text = some rest) :
    findUnquoted? first more text start
      = if beginsWith (first :: more) rest then some (some i)
        else findUnquoted? first more text (i + first.utf8Size) := by
  rw [findUnquoted?]
  split
  · simp_all
  · simp_all
  · next j d hscan =>
    obtain ⟨rfl, rfl⟩ : i = j ∧ c = d := by simpa using h.symm.trans hscan
    rw [hr]

/-- **Where a search for a word finds it,** by its offset.  The recursion is that of the search:
where only the letter is found, the text up to it goes to the front. -/
theorem findUnquoted?_append (first : Char) (more : List Char) (front rest : List Char) :
    findUnquoted? first more (front ++ rest) (byteLength front)
      = some ((splitOutside? (beginsWith (first :: more)) .outside rest).map fun parts =>
          byteLength front + byteLength parts.1) := by
  have hscan := scanQuoted?_append (· == first) front rest
  rw [splitOutside?_word]
  cases hsplit : splitOutside? (startsIn (· == first)) .outside rest with
  | none =>
    rw [hsplit] at hscan
    exact findUnquoted?_of_none hscan
  | some parts =>
    obtain ⟨before, suffix⟩ := parts
    obtain ⟨c, behind, rfl, hc, rfl⟩ := exists_of_splitOutside? hsplit
    obtain rfl : c = first := beq_iff_eq.mp hc
    have hfrom := from?_append (front ++ before) (c :: behind)
    rw [List.append_assoc, byteLength_append] at hfrom
    rw [hsplit] at hscan
    rw [findUnquoted?_of_some hscan hfrom, Option.bind_some, resume]
    split
    · rfl
    -- taken up again behind the letter
    · have hrest := findUnquoted?_append c more (front ++ before ++ [c]) behind
      have htext : front ++ before ++ [c] ++ behind = front ++ (before ++ c :: behind) := by simp
      have hstart : byteLength (front ++ before ++ [c])
          = byteLength front + byteLength before + c.utf8Size := by simp [Nat.add_assoc]
      rw [htext, hstart] at hrest
      rw [hrest, List.tail_cons]
      rcases splitOutside? (beginsWith (c :: more)) .outside behind with _ | ⟨left, right⟩
      · rfl
      · simp [Nat.add_assoc]
termination_by rest.length
decreasing_by
  subst_vars
  simp
  omega

/-! ## 3. Brackets

The count is a search, too: what it stops at is counted, and it goes on behind it.  In pieces the
whole text is walked once, and both come to the same number, as nothing between two stops counts.
-/

/-- What the count of brackets makes of a place where it stops. -/
def countAt : List Char × List Char → Int
  | (_, c :: rest) =>
    if c = '[' ∨ c = '{' then 1 + bracketBalance .outside rest
    else if c = ']' ∨ c = '}' then bracketBalance .outside rest - 1
    else 0
  | (_, []) => 0

/-- What stands in front of the stop does not count. -/
theorem countAt_pushBefore (c : Char) (split : Option (List Char × List Char)) :
    ((pushBefore c split).map countAt).getD 0 = (split.map countAt).getD 0 := by
  rcases split with _ | ⟨before, _ | ⟨d, rest⟩⟩ <;> rfl

/-- **The count of brackets is a search for the next bracket,** taken up again behind it. -/
theorem bracketBalance_eq (state : Quoting) (text : List Char) :
    bracketBalance state text
      = ((splitOutside? (startsIn isBracketStop) state text).map countAt).getD 0 := by
  fun_induction splitOutside? (startsIn isBracketStop) state text with
  | case1 state => cases state <;> rfl
  | case2 c rest ih => rw [bracketBalance, ih, countAt_pushBefore]
  | case3 c rest ih => rw [bracketBalance, ih, countAt_pushBefore, countAt_pushBefore]
  | case4 c rest hhide ih => rw [bracketBalance, ih, countAt_pushBefore]; exact hhide
  | case5 rest ih => rw [bracketBalance, if_pos rfl, ih, countAt_pushBefore]
  | case6 rest hd ih => rw [bracketBalance, if_neg hd, if_pos rfl, ih, countAt_pushBefore]
  | case7 c rest hd hs hfound =>
    have hstop : isBracketStop c = true := hfound
    rw [bracketBalance, if_neg hd, if_neg hs, Option.map_some, Option.getD_some, countAt]
    split
    · rfl
    · split
      · rfl
      · have hhash : c = '#' := by
          simp only [isBracketStop, Bool.or_eq_true, beq_iff_eq] at hstop
          tauto
        rw [if_pos hhash]
  | case8 c rest hd hs hfound ih =>
    -- no bracket and no hash, so the count goes on
    have hno : isBracketStop c = false := Bool.eq_false_iff.mpr hfound
    simp only [isBracketStop, Bool.or_eq_false_iff, beq_eq_false_iff_ne, and_assoc] at hno
    obtain ⟨h1, h2, h3, h4, h5⟩ := hno
    rw [bracketBalance, if_neg hd, if_neg hs, if_neg (not_or.mpr ⟨h1, h3⟩),
      if_neg (not_or.mpr ⟨h2, h4⟩), if_neg h5, ih, countAt_pushBefore]

/-- Without a stop nothing is counted. -/
theorem bracketDelta?_of_none {text : List Char} {start : Nat} {depth : Int}
    (h : scanQuoted? isBracketStop text start = some none) :
    bracketDelta? text start depth = some depth := by
  rw [bracketDelta?]
  split <;> simp_all

/-- A stop is counted, and a hash ends the count. -/
theorem bracketDelta?_of_some {text : List Char} {start i : Nat} {depth : Int} {c : Char}
    (h : scanQuoted? isBracketStop text start = some (some (i, c))) :
    bracketDelta? text start depth
      = if c = '[' ∨ c = '{' then bracketDelta? text (i + 1) (depth + 1)
        else if c = ']' ∨ c = '}' then bracketDelta? text (i + 1) (depth - 1)
        else some depth := by
  rw [bracketDelta?]
  split
  · simp_all
  · simp_all
  · next j d hscan =>
    obtain ⟨rfl, rfl⟩ : i = j ∧ c = d := by simpa using h.symm.trans hscan
    rfl

/-- **The count of brackets by offsets.** -/
theorem bracketDelta?_append (front rest : List Char) (depth : Int) :
    bracketDelta? (front ++ rest) (byteLength front) depth
      = some (depth + bracketBalance .outside rest) := by
  have hscan := scanQuoted?_append isBracketStop front rest
  rw [bracketBalance_eq]
  cases hsplit : splitOutside? (startsIn isBracketStop) .outside rest with
  | none =>
    rw [hsplit] at hscan
    rw [bracketDelta?_of_none hscan]
    simp
  | some parts =>
    obtain ⟨before, suffix⟩ := parts
    obtain ⟨c, behind, rfl, hc, rfl⟩ := exists_of_splitOutside? hsplit
    rw [hsplit] at hscan
    -- a bracket has one byte, so the count goes on right behind it
    have hrest (hsize : c.utf8Size = 1) (depth' : Int) := by
      have hih := bracketDelta?_append (front ++ before ++ [c]) behind depth'
      have htext : front ++ before ++ [c] ++ behind = front ++ (before ++ c :: behind) := by simp
      have hstart : byteLength (front ++ before ++ [c])
          = byteLength front + byteLength before + 1 := by simp [hsize, Nat.add_assoc]
      rw [htext, hstart] at hih
      exact hih
    rw [bracketDelta?_of_some hscan, Option.map_some, Option.getD_some, countAt]
    split
    · next hopen =>
      have hsize : c.utf8Size = 1 := by rcases hopen with rfl | rfl <;> rfl
      rw [hrest hsize]
      congr 1
      omega
    · split
      · next hclose =>
        have hsize : c.utf8Size = 1 := by rcases hclose with rfl | rfl <;> rfl
        rw [hrest hsize]
        congr 1
        omega
      · simp
termination_by rest.length
decreasing_by
  all_goals
    subst_vars
    simp
    omega

/-- The count of a whole text. -/
theorem bracketDelta?_zero (text : List Char) :
    bracketDelta? text 0 0 = some (bracketBalance .outside text) := by
  have h := bracketDelta?_append [] text 0
  rw [List.nil_append, byteLength_nil, Int.zero_add] at h
  exact h

/-! ## 4. Headers

A name in brackets is found as a word is, by its closing brackets.  Its text is cut out between two
offsets, and what stands behind the brackets has to be blank or a comment.
-/

/-- What stands behind a name in brackets, and the header if that is a blank or a comment. -/
def headerOf (array : Bool) (more : List Char) : List Char × List Char → Option Header
  | (name, rest) =>
    let behind := trimStart (rest.drop (more.length + 1))
    if behind.isEmpty || startsIn (· == '#') behind then
      match SectionPath.parse name with
      | .ok path => some { path, array }
      | .error _ => none
    else none

/-- A header is read behind its opening brackets. -/
theorem headerFrom?_append (array : Bool) (front more rest : List Char) :
    headerFrom? array (byteLength front) more (front ++ rest)
      = some ((splitOutside? (beginsWith (']' :: more)) .outside rest).bind
          (headerOf array more)) := by
  rw [headerFrom?, findUnquoted?_append]
  cases hsplit : splitOutside? (beginsWith (']' :: more)) .outside rest with
  | none => rfl
  | some parts =>
    obtain ⟨name, tail⟩ := parts
    obtain rfl := append_of_splitOutside? hsplit
    obtain ⟨after, hafter⟩ := Option.isSome_iff_exists.mp (found_of_splitOutside? hsplit)
    obtain rfl := after?_eq_some_iff.mp hafter
    have hfrom := from?_append (front ++ name ++ (']' :: more)) after
    have hname := between?_append front name (']' :: more ++ after)
    rw [byteLength_append, byteLength_append, List.append_assoc, List.append_assoc] at hfrom
    rw [List.append_assoc] at hname
    have hdrop : (']' :: more ++ after).drop (more.length + 1) = after := by simp
    simp only [Option.map_some, Option.bind_eq_bind, Option.bind_some, hfrom, hname, headerOf,
      hdrop]
    split
    · cases SectionPath.parse name <;> rfl
    · rfl

/-- **Headers by offsets.** -/
theorem header?_eq {trimmed : List Char} (h : startsIn (· == '[') trimmed = true) :
    header? trimmed = some (Header.ofLine? trimmed) := by
  obtain ⟨rest, rfl⟩ : ∃ rest, trimmed = '[' :: rest := by
    cases trimmed with
    | nil => cases h
    | cons c rest => exact ⟨rest, by rw [beq_iff_eq.mp h]⟩
  -- two brackets open an array of tables, one a table
  by_cases hb : beginsWith ['[', '['] ('[' :: rest) = true
  · obtain ⟨inner, hinner⟩ := Option.isSome_iff_exists.mp hb
    have hread : headerFrom? true 2 [']'] (['[', '['] ++ inner) = _ :=
      headerFrom?_append true ['[', '['] [']'] inner
    rw [header?, if_pos hb, Header.ofLine?, if_pos hb, after?_eq_some_iff.mp hinner, hread]
    have hdrop : (['[', '['] ++ inner).drop (['[', '['] : List Char).length = inner := rfl
    dsimp only
    rw [hdrop]
    rcases splitOutside? (beginsWith [']', ']']) .outside inner with _ | ⟨name, tail⟩ <;> rfl
  · have hread : headerFrom? false 1 [] (['['] ++ rest) = _ :=
      headerFrom?_append false ['['] [] rest
    rw [header?, if_neg hb, Header.ofLine?, if_neg hb, ← List.singleton_append, hread]
    dsimp only
    have hdrop : (['['] ++ rest).drop (['['] : List Char).length = rest := rfl
    rw [hdrop]
    rcases splitOutside? (beginsWith [']']) .outside rest with _ | ⟨name, tail⟩ <;> rfl

/-! ## 5. Gaps

These searches look at single bytes.  A byte at the beginning of a character, or at its end, is a
space or a tab only if the character is.
-/

/-- Whether a byte is a gap is seen from the character that it stands for. -/
theorem isGapByte_eq {b : UInt8} {c : Char}
    (h : ∀ d : Char, d.toNat < 128 → (b = asciiByte d ↔ c = d)) : isGapByte b = isGap c := by
  have hspace := h ' ' (by decide)
  have htab := h '\t' (by decide)
  rw [Bool.eq_iff_iff]
  simp only [isGapByte, isGap, Bool.or_eq_true, beq_iff_eq, hspace, htab]

/-- A space or a tab is one byte. -/
theorem utf8Size_of_isGap {c : Char} (h : isGap c = true) : c.utf8Size = 1 := by
  simp only [isGap, Bool.or_eq_true, beq_iff_eq] at h
  rcases h with rfl | rfl <;> rfl

/-- At the end of the bytes there is nothing to skip. -/
theorem skipGap_of_none {bytes : List UInt8} {i : Nat} (h : bytes[i]? = none) :
    skipGap bytes i = i := by
  rw [skipGap, dif_neg (Nat.not_lt.mpr (List.getElem?_eq_none_iff.mp h))]

/-- A byte that is a gap is skipped. -/
theorem skipGap_of_some {bytes : List UInt8} {i : Nat} {b : UInt8} (h : bytes[i]? = some b) :
    skipGap bytes i = if isGapByte b then skipGap bytes (i + 1) else i := by
  obtain ⟨hi, rfl⟩ := List.getElem?_eq_some_iff.mp h
  rw [skipGap, dif_pos hi]

/-- **Gaps are skipped byte by byte.** -/
theorem skipGap_append : ∀ front rest : List Char,
    skipGap (utf8 (front ++ rest)) (byteLength front)
      = byteLength front + byteLength (rest.takeWhile isGap)
  | front, [] => by
    have hend := getElem?_utf8_append front []
    rw [skipGap_of_none hend, List.takeWhile_nil, byteLength_nil, Nat.add_zero]
  | front, c :: rest => by
    obtain ⟨b, inner, he, -, hb⟩ := exists_utf8EncodeChar c
    have hbyte := getElem?_utf8_append front (c :: rest)
    rw [utf8_cons, he, List.cons_append, List.head?_cons] at hbyte
    rw [skipGap_of_some hbyte, isGapByte_eq hb, List.takeWhile_cons]
    split
    · next hgap =>
      have hsize := utf8Size_of_isGap hgap
      have ih := skipGap_append (front ++ [c]) rest
      rw [List.append_assoc, List.singleton_append, byteLength_append, byteLength_cons, hsize,
        byteLength_nil, Nat.add_zero] at ih
      rw [ih, byteLength_cons, hsize, Nat.add_assoc]
    · rfl

/-- **Gaps are stripped byte by byte,** backwards and not beyond the beginning of the value. -/
theorem stripGap?_append (front rest : List Char) (body : List Char) :
    stripGap? (utf8 (front ++ (body ++ rest))) (byteLength front)
        (byteLength front + byteLength body)
      = some (byteLength front + byteLength (dropEnd isGap body)) := by
  -- from the end of the value, character by character
  induction body using List.reverseRecOn generalizing rest with
  | nil =>
    rw [byteLength_nil, Nat.add_zero]
    cases hstart : byteLength front with
    | zero => rfl
    | succ n => rw [stripGap?, if_neg (Nat.lt_irrefl _)]; rfl
  | append_singleton body c ih =>
    obtain ⟨inner, b, he, hb⟩ := exists_last_utf8EncodeChar c
    have hlength : inner.length + 1 = c.utf8Size := by
      rw [← String.length_utf8EncodeChar, he, List.length_append, List.length_singleton]
    have hstop : byteLength front + byteLength (body ++ [c])
        = byteLength front + byteLength body + inner.length + 1 := by
      rw [byteLength_append, byteLength_cons, byteLength_nil]
      omega
    -- the byte in front of the stop is the last one of the character
    have hbyte : (utf8 (front ++ (body ++ [c] ++ rest)))[byteLength front + byteLength body
        + inner.length]? = some b := by
      have hbytes : utf8 (front ++ (body ++ [c] ++ rest))
          = (utf8 (front ++ body) ++ inner) ++ b :: utf8 rest := by simp [he]
      have hindex : byteLength front + byteLength body + inner.length
          = (utf8 (front ++ body) ++ inner).length := by simp [Nat.add_assoc]
      rw [hbytes, hindex, List.getElem?_append_right (Nat.le_refl _), Nat.sub_self]
      rfl
    have hlt : byteLength front < byteLength front + byteLength body + inner.length + 1 := by omega
    rw [hstop, stripGap?, if_pos hlt, hbyte]
    dsimp only
    rw [isGapByte_eq hb]
    split
    · next hgap =>
      have hinner : inner.length = 0 := by
        have hsize := utf8Size_of_isGap hgap
        omega
      have hdrop : dropEnd isGap (body ++ [c]) = dropEnd isGap body :=
        dropEnd_append_of_forall (List.forall_mem_singleton.mpr hgap)
      rw [hdrop, hinner, Nat.add_zero, ← ih ([c] ++ rest), List.append_assoc]
    · next hgap =>
      have hdrop : dropEnd isGap (body ++ [c]) = body ++ [c] := by
        rw [dropEnd_append_cons (Bool.eq_false_iff.mpr hgap)]
        rfl
      rw [hdrop, hstop]

/-! ## 6. Comments

A value in quotes or brackets is searched for a hash outside quotes, any other one for the first
hash there is.
-/

/-- Where the second part of a text begins, if it is not empty. -/
def secondAt? (i : Nat) (parts : List Char × List Char) : Option Nat :=
  if parts.2.isEmpty then none else some (i + byteLength parts.1)

/-- The first hash, by its offset. -/
theorem hashAt?_eq : ∀ (i : Nat) (text : List Char),
    hashAt? i text = secondAt? i (text.takeWhile (· != '#'), text.dropWhile (· != '#'))
  | _, [] => rfl
  | i, c :: rest => by
    by_cases hc : c = '#'
    · simp [hashAt?, hc, secondAt?]
    · have ih := hashAt?_eq (i + c.utf8Size) rest
      simp [hashAt?, hc, ih, secondAt?, Nat.add_assoc]

/-- A value in quotes or brackets is known by its first byte. -/
theorem any_isQuotedByte (front body : List Char) :
    (utf8 (front ++ body))[byteLength front]?.any isQuotedByte
      = startsIn Assignment.isQuotedStart body := by
  rw [getElem?_utf8_append]
  cases body with
  | nil => rfl
  | cons c rest =>
    obtain ⟨b, inner, he, -, hb⟩ := exists_utf8EncodeChar c
    have hdouble := hb '"' (by decide)
    have hsingle := hb '\'' (by decide)
    have hbracket := hb '[' (by decide)
    have hbrace := hb '{' (by decide)
    rw [utf8_cons, he, List.cons_append, List.head?_cons, Option.any_some, startsIn,
      Bool.eq_iff_iff]
    simp only [isQuotedByte, Assignment.isQuotedStart, Bool.or_eq_true, beq_iff_eq, hdouble,
      hsingle, hbracket, hbrace]

/-- **Comments by offsets.** -/
theorem commentAt?_append (front body : List Char) :
    commentAt? (front ++ body) (byteLength front)
      = some (secondAt? (byteLength front) (Assignment.splitComment body)) := by
  rw [commentAt?, any_isQuotedByte, Assignment.splitComment]
  split
  · rw [scanQuoted?_append, Option.map_some]
    cases hsplit : splitOutside? (startsIn (· == '#')) .outside body with
    | none => rfl
    | some parts =>
      obtain ⟨before, suffix⟩ := parts
      obtain ⟨c, rest, rfl, -, -⟩ := exists_of_splitOutside? hsplit
      rfl
  · rw [from?_append, Option.map_some, hashAt?_eq]

/-! ## 7. Kinds of line

With the searches, the gaps and the comments settled, what is read of a line is put together of
them.
-/

/-- The offsets of an assignment in pieces. -/
def Marks.ofAssignment (a : Assignment) : Marks :=
  ⟨a.key, a.valueStart, a.valueEnd, a.commentStart?⟩

/-- What a line is, by offsets. -/
def MarkedKind.ofKind : LineKind → MarkedKind
  | .header h => .header h
  | .assignment a => .assignment (.ofAssignment a)
  | .other => .other

/-- The end of a value, in front of its gap and its comment. -/
theorem stripGap?_splitComment (front body : List Char) :
    stripGap? (utf8 (front ++ body)) (byteLength front)
        ((secondAt? (byteLength front) (Assignment.splitComment body)).getD
          (byteLength (front ++ body)))
      = some (byteLength front + byteLength (dropEnd isGap (Assignment.splitComment body).1)) := by
  have hbody := splitComment_append body
  generalize Assignment.splitComment body = parts at hbody
  obtain ⟨left, comment⟩ := parts
  subst hbody
  have hstop : (secondAt? (byteLength front) (left, comment)).getD
      (byteLength (front ++ (left ++ comment))) = byteLength front + byteLength left := by
    cases comment with
    | nil => simp [secondAt?]
    | cons c rest => rfl
  rw [hstop, stripGap?_append]

/-- What is read behind an equals sign, by offsets and in pieces. -/
theorem marksBehind?_append (key : KeyPath) (left right : List Char) {body comment : List Char}
    (hbody : Assignment.splitComment (right.dropWhile isGap) = (body, comment)) :
    marksBehind? (left ++ '=' :: right) key (byteLength left)
      = some (.ofAssignment ⟨key, left ++ '=' :: right.takeWhile isGap, dropEnd isGap body,
          takeEnd isGap body, comment⟩) := by
  have hline : left ++ '=' :: right
      = left ++ '=' :: right.takeWhile isGap ++ right.dropWhile isGap := by simp
  have hstart : skipGap (utf8 (left ++ '=' :: right)) (byteLength left + 1)
      = byteLength (left ++ '=' :: right.takeWhile isGap) := by
    have hequals : byteLength left + 1 = byteLength (left ++ ['=']) :=
      (byteLength_append left ['=']).symm
    rw [hequals, List.append_cons, skipGap_append, ← byteLength_append, ← List.append_cons]
  have hcomment := commentAt?_append (left ++ '=' :: right.takeWhile isGap) (right.dropWhile isGap)
  have hend := stripGap?_splitComment (left ++ '=' :: right.takeWhile isGap) (right.dropWhile isGap)
  rw [← hline, hbody] at hcomment hend
  have hpieces := congrArg byteLength (dropEnd_append_takeEnd isGap body)
  rw [byteLength_append] at hpieces
  have hmarked : secondAt? (byteLength (left ++ '=' :: right.takeWhile isGap)) (body, comment)
      = Assignment.commentStart? ⟨key, left ++ '=' :: right.takeWhile isGap, dropEnd isGap body,
          takeEnd isGap body, comment⟩ := by
    rw [secondAt?, Assignment.commentStart?, Nat.add_assoc, hpieces]
  rw [marksBehind?, hstart, hcomment]
  simp only [Option.bind_eq_bind, Option.bind_some, hend]
  rw [hmarked]
  rfl

/-- **Assignments by offsets.** -/
theorem assignment?_eq (line : List Char) :
    assignment? line = some ((Assignment.ofLine? line).map .ofAssignment) := by
  have hscan : scanQuoted? (fun c => c == '=' || c == '#') line 0 = _ :=
    scanQuoted?_append (fun c => c == '=' || c == '#') [] line
  rw [assignment?, hscan, Assignment.ofLine?]
  cases hsplit : splitOutside? (startsIn fun c => c == '=' || c == '#') .outside line with
  | none => rfl
  | some parts =>
    obtain ⟨left, suffix⟩ := parts
    obtain ⟨c, right, rfl, hc, rfl⟩ := exists_of_splitOutside? hsplit
    rw [Bool.or_eq_true, beq_iff_eq, beq_iff_eq] at hc
    -- an equals sign, or a comment before any
    rcases hc with rfl | rfl
    · have hfound : foundAt? (byteLength []) (some (left, '=' :: right))
          = some (byteLength left, '=') := by simp [foundAt?]
      rw [hfound]
      simp only [Option.bind_eq_bind, Option.bind_some, upTo?_append]
      cases hkey : KeyPath.parse (trim left) with
      | error e => rfl
      | ok key =>
        dsimp only
        rw [marksBehind?_append key left right rfl]
        rfl
    · rfl

/-- **What a line is, by offsets.** -/
theorem classify?_eq (line : List Char) :
    classify? line = some (.ofKind (classify line)) := by
  unfold classify? classify
  dsimp only
  split
  · rfl
  · split
    · next hbracket =>
      rw [header?_eq hbracket]
      cases Header.ofLine? (trimStart line) <;> rfl
    · rw [assignment?_eq]
      cases Assignment.ofLine? line <;> rfl

/-! ## 8. The pieces of an assignment

What is cut out of a line again later, by the quoting of bare words and by the planning of an edit,
are the pieces that were read.
-/

/-- What stands in front of the value. -/
theorem upTo?_valueStart (a : Assignment) : upTo? a.valueStart a.chars = some a.lead := by
  rw [Assignment.chars, List.append_assoc, List.append_assoc]
  exact upTo?_append _ _

/-- The value and what stands behind it. -/
theorem from?_valueStart (a : Assignment) :
    from? a.valueStart a.chars = some (a.value ++ a.gap ++ a.comment) := by
  rw [Assignment.chars, List.append_assoc, List.append_assoc, ← List.append_assoc a.value]
  exact from?_append _ _

/-- What stands behind the value. -/
theorem from?_valueEnd (a : Assignment) :
    from? a.valueEnd a.chars = some (a.gap ++ a.comment) := by
  rw [Assignment.valueEnd, ← byteLength_append, Assignment.chars, List.append_assoc]
  exact from?_append _ _

/-- **The value is cut out at its offsets.** -/
theorem between?_value (a : Assignment) :
    between? a.valueStart a.valueEnd a.chars = some a.value := by
  rw [Assignment.chars, List.append_assoc]
  exact between?_append _ _ _

end TomlKeep.ByOffset
