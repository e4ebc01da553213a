/-
# Searching past quoted text

The searches of a line (`splitOutside?`, `bracketBalance`) step over quoted text without looking
into it.  Here this is said once, of the text that is stepped over: `Outside p` holds of a text
made of unquoted characters in `p` and of whole strings, and a search for anything that `p` rules
out goes right through such a text, whatever stands behind it (`splitOutside?_outside`,
`bracketBalance_outside`).

A quoted literal is such a text for every `p` (`outside_quote`).
-/
import Mathlib
import TomlKeep.Line
import TomlKeep.Literal

namespace TomlKeep

open Text

/-! ## 1. Splits with a text in front

A search gives what stands in front of its find and what begins there.  Going through a text puts it
in front of the first part, so the laws of this operation are what moves a search along.
-/

/-- Puts a text in front of the first part of a split. -/
def pushText (front : List Char) (split : Option (List Char × List Char)) :
    Option (List Char × List Char) :=
  split.map fun parts => (front ++ parts.1, parts.2)

@[simp] theorem pushText_none (front : List Char) : pushText front none = none := rfl

@[simp] theorem pushText_some (front before suffix : List Char) :
    pushText front (some (before, suffix)) = some (front ++ before, suffix) := rfl

@[simp] theorem pushText_nil (split : Option (List Char × List Char)) :
    pushText [] split = split := by
  rcases split with _ | ⟨before, suffix⟩ <;> rfl

@[simp] theorem pushBefore_pushText (c : Char) (front : List Char)
    (split : Option (List Char × List Char)) :
    pushBefore c (pushText front split) = pushText (c :: front) split := by
  rcases split with _ | ⟨before, suffix⟩ <;> rfl

theorem pushBefore_eq_pushText (c : Char) (split : Option (List Char × List Char)) :
    pushBefore c split = pushText [c] split := by
  rcases split with _ | ⟨before, suffix⟩ <;> rfl

/-- Texts in front of a split may be joined. -/
theorem pushText_pushText (front next : List Char) (split : Option (List Char × List Char)) :
    pushText front (pushText next split) = pushText (front ++ next) split := by
  rcases split with _ | ⟨before, suffix⟩ <;> simp

/-! ## 2. The text that a search steps over

A quoted string is opaque from its opening quote to the quote that closes it, and a search looks at
nothing in between.  Which characters may stand outside quotes depends on what is searched for, so
this is a parameter; the strings are the same for all searches.
-/

/-- The body of a string in double quotes: a backslash hides the character behind it, and no other
double quote occurs. -/
inductive QuotedBody : List Char → Prop where
  | nil : QuotedBody []
  | char {c : Char} {rest : List Char} : c ≠ '"' → c ≠ '\\' → QuotedBody rest →
      QuotedBody (c :: rest)
  | hidden {c : Char} {rest : List Char} : QuotedBody rest → QuotedBody ('\\' :: c :: rest)

/-- **Text outside quotes.**  Unquoted characters in `p`, and strings that are closed on the way. -/
inductive Outside (p : Char → Bool) : List Char → Prop where
  | nil : Outside p []
  | char {c : Char} {rest : List Char} : c ≠ '"' → c ≠ '\'' → p c = true → Outside p rest →
      Outside p (c :: rest)
  | double {body rest : List Char} : QuotedBody body → Outside p rest →
      Outside p ('"' :: (body ++ '"' :: rest))
  | single {body rest : List Char} : '\'' ∉ body → Outside p rest →
      Outside p ('\'' :: (body ++ '\'' :: rest))

/-- Bodies may be joined, since neither half ends in the middle of an escape. -/
theorem QuotedBody.append {a b : List Char} (ha : QuotedBody a) (hb : QuotedBody b) :
    QuotedBody (a ++ b) := by
  induction ha with
  | nil => exact hb
  | char h1 h2 _ ih => exact .char h1 h2 ih
  | hidden _ ih => exact .hidden ih

/-- Texts outside quotes may be joined: every string in them is closed. -/
theorem Outside.append {p : Char → Bool} {a b : List Char} (ha : Outside p a)
    (hb : Outside p b) : Outside p (a ++ b) := by
  induction ha with
  | nil => exact hb
  | char h1 h2 h3 _ ih => exact .char h1 h2 h3 ih
  | double h _ ih =>
    simp only [List.cons_append, List.append_assoc]
    exact .double h ih
  | single h _ ih =>
    simp only [List.cons_append, List.append_assoc]
    exact .single h ih

/-- Text without any quote. -/
theorem outside_of_forall {p : Char → Bool} : ∀ {text : List Char},
    (∀ c ∈ text, c ≠ '"' ∧ c ≠ '\'' ∧ p c = true) → Outside p text
  | [], _ => .nil
  | c :: rest, h => by
    obtain ⟨h1, h2, h3⟩ := h c (by simp)
    exact .char h1 h2 h3 (outside_of_forall fun d hd => h d (by simp [hd]))

/-! ## 3. The searches

Both searches are automata of three states: outside quotes, in double quotes, in single quotes.  A
body takes the search from its quote to the quote that closes it, by induction on the body; a text
outside quotes takes it from outside to outside, by induction on its strings and characters.
-/

/-- In double quotes a search goes to the end of the string. -/
theorem splitOutside?_quotedBody (found : List Char → Bool) {body : List Char}
    (h : QuotedBody body) (rest : List Char) :
    splitOutside? found .double (body ++ '"' :: rest)
      = pushText (body ++ ['"']) (splitOutside? found .outside rest) := by
  induction h with
  | nil => simp [splitOutside?, pushBefore_eq_pushText]
  | char h1 h2 _ ih => simp [splitOutside?, h1, h2, ih]
  | hidden _ ih => simp [splitOutside?, ih]

/-- In single quotes a search goes to the next quote: nothing is hidden there. -/
theorem splitOutside?_single (found : List Char → Bool) {body : List Char} (h : '\'' ∉ body)
    (rest : List Char) :
    splitOutside? found .single (body ++ '\'' :: rest)
      = pushText (body ++ ['\'']) (splitOutside? found .outside rest) := by
  induction body with
  | nil => simp [splitOutside?, pushBefore_eq_pushText]
  | cons c body ih =>
    simp only [List.mem_cons, not_or] at h
    simp [splitOutside?, Ne.symm h.1, ih h.2]

/-- **A search goes through text in which there is nothing to find.**  What is ruled out is the
find at an unquoted character; inside quotes nothing is asked.  So the search goes on behind the
text as if it had begun there. -/
theorem splitOutside?_outside {found : List Char → Bool} {p : Char → Bool} {text : List Char}
    (h : Outside p text) (hf : ∀ c rest, p c = true → found (c :: rest) = false)
    (rest : List Char) :
    splitOutside? found .outside (text ++ rest)
      = pushText text (splitOutside? found .outside rest) := by
  induction h with
  | nil => simp
  | char h1 h2 h3 _ ih => simp [splitOutside?, h1, h2, hf _ _ h3, ih]
  -- a string is its body and the text outside quotes behind it
  | double h _ ih =>
    simp only [List.cons_append, List.append_assoc, splitOutside?, if_true,
      splitOutside?_quotedBody _ h, ih, pushBefore_pushText, pushText_pushText]
    simp
  | single h _ ih =>
    simp only [List.cons_append, List.append_assoc, splitOutside?, if_true,
      splitOutside?_single _ h, ih, pushBefore_pushText, pushText_pushText]
    simp

/-- What is found is found again if something else stands behind its first character. -/
theorem splitOutside?_congr {p : Char → Bool} {state : Quoting} {text before : List Char}
    {c : Char} {rest : List Char}
    (h : splitOutside? (startsIn p) state text = some (before, c :: rest)) (other : List Char) :
    splitOutside? (startsIn p) state (before ++ c :: other) = some (before, c :: other) := by
  fun_induction splitOutside? (startsIn p) state text generalizing before with
  | case4 d tail hd ih =>
    obtain ⟨b, rfl, hb⟩ := pushBefore_eq_some h
    -- a backslash hides something, or the text ends behind it
    have hne : d ≠ '\\' := by
      rintro rfl
      cases tail with
      | nil => simp [splitOutside?] at hb
      | cons e es => exact hd e es rfl rfl
    have := ih hb
    simp [splitOutside?, hne, this, pushBefore]
  | _ => grind [pushBefore_eq_some, splitOutside?, startsIn, pushBefore]

/-- In double quotes no bracket is counted. -/
theorem bracketBalance_quotedBody {body : List Char} (h : QuotedBody body) (rest : List Char) :
    bracketBalance .double (body ++ '"' :: rest) = bracketBalance .outside rest := by
  induction h with
  | nil => simp [bracketBalance]
  | char h1 h2 _ ih => simp [bracketBalance, h1, h2, ih]
  | hidden _ ih => simp [bracketBalance, ih]

/-- In single quotes no bracket is counted. -/
theorem bracketBalance_single {body : List Char} (h : '\'' ∉ body) (rest : List Char) :
    bracketBalance .single (body ++ '\'' :: rest) = bracketBalance .outside rest := by
  induction body with
  | nil => simp [bracketBalance]
  | cons c body ih =>
    simp only [List.mem_cons, not_or] at h
    simp [bracketBalance, Ne.symm h.1, ih h.2]

/-- A character that the count of brackets passes over. -/
def isNoBracket (c : Char) : Bool :=
  !(c == '[' || c == '{' || c == ']' || c == '}' || c == '#')

/-- **The count of brackets goes through text without brackets.**  A hash is ruled out with the
brackets, for the count stops at it. -/
theorem bracketBalance_outside {text : List Char} (h : Outside isNoBracket text)
    (rest : List Char) :
    bracketBalance .outside (text ++ rest) = bracketBalance .outside rest := by
  induction h with
  | nil => simp
  | char h1 h2 h3 _ ih =>
    simp only [isNoBracket, Bool.not_eq_true', Bool.or_eq_false_iff, beq_eq_false_iff_ne] at h3
    simp [bracketBalance, h1, h2, h3, ih]
  | double h _ ih => simp [bracketBalance, bracketBalance_quotedBody h, ih]
  | single h _ ih => simp [bracketBalance, bracketBalance_single h, ih]

/-! ## 4. Quoted literals

A literal in double quotes escapes every quote and every backslash of the text that it quotes.  So
its body ends nowhere but at its own quote, whatever the text was.
-/

/-- A digit of a code is neither a quote nor a backslash. -/
theorem upperHexDigit_ne {n : Nat} (h : n < 16) :
    upperHexDigit n ≠ '"' ∧ upperHexDigit n ≠ '\\' := by
  revert n
  decide

theorem quotedBody_upperHex4 (n : Nat) : QuotedBody (upperHex4 n) := by
  have digit (m : Nat) := upperHexDigit_ne (Nat.mod_lt m (by decide : 16 > 0))
  exact .char (digit _).1 (digit _).2 (.char (digit _).1 (digit _).2
    (.char (digit _).1 (digit _).2 (.char (digit _).1 (digit _).2 .nil)))

/-- Each character is written as a piece of a body: a backslash with one character behind it, a
code, or itself if it is neither a quote nor a backslash. -/
theorem quotedBody_quoteChar (c : Char) : QuotedBody (quoteChar c) := by
  unfold quoteChar
  split
  · exact .hidden .nil
  split
  · exact .hidden .nil
  split
  · exact .hidden .nil
  split
  · exact .hidden .nil
  split
  · exact .hidden .nil
  split
  · exact .hidden (quotedBody_upperHex4 _)
  · exact .char ‹_› ‹_› .nil

theorem quotedBody_flatMap (text : List Char) : QuotedBody (text.flatMap quoteChar) := by
  induction text with
  | nil => exact .nil
  | cons c rest ih =>
    rw [List.flatMap_cons]
    exact (quotedBody_quoteChar c).append ih

/-- **A quoted literal is opaque to every search.** -/
theorem outside_quote (p : Char → Bool) (text : List Char) : Outside p (quote text) :=
  .double (quotedBody_flatMap text) .nil

end TomlKeep
