/-
# Where a multi-line string ends

The end of a multi-line string is found from the string itself: what stands behind it is looked at
for one character only, to tell whether one more quote belongs to the string.  So a string that is
closed in one text is closed at the same place in every text that goes on with the same character
(`splitMultiline?_congr`), and what is done to later lines cannot reopen it.
-/
import Mathlib
import TomlKeep.Scan

namespace TomlKeep

open Text

/-- A run and what is left of the text are the text. -/
theorem splitRun_append (c : Char) (n : Nat) (text : List Char) :
    (splitRun c n text).1 ++ (splitRun c n text).2 = text := by
  fun_induction splitRun c n text <;> simp_all

/-- A run is found again in front of any text that begins as what was behind it: nothing further
is looked at. -/
theorem splitRun_congr {c : Char} {n : Nat} {text other : List Char}
    (h : other.head? = (splitRun c n text).2.head?) :
    splitRun c n ((splitRun c n text).1 ++ other) = ((splitRun c n text).1, other) := by
  fun_induction splitRun c n text with
  | case1 => simp [splitRun]
  | case2 n => simp_all [splitRun]
  | case3 n rest run behind hrun ih =>
    simp only [hrun] at ih
    simp [splitRun, ih h]
  | case4 n d rest hd =>
    -- the run ended at another character, so the other text has to begin with one, too
    cases other with
    | nil => simp at h
    | cons e es =>
      obtain rfl : e = d := by simpa using h
      simp [splitRun, hd]

/-- Every character of the run is the given one. -/
theorem eq_of_mem_splitRun {c d : Char} {n : Nat} {text : List Char}
    (h : d ∈ (splitRun c n text).1) : d = c := by
  fun_induction splitRun c n text with
  | case3 n rest run behind hrun ih =>
    simp only [hrun] at ih
    rcases List.mem_cons.mp h with rfl | h
    · rfl
    · exact ih h
  | _ => simp at h

/-! ## 1. The recursion of the search

The search matches on two characters at a time, because of the backslash.  Its equations are stated
here with the condition that tells them apart, and an induction principle follows them case by case,
so that later proofs do not have to split the match.
-/

/-- Nothing closes a string at the end of the text, nor does a lone backslash. -/
theorem closeTriple?_nil (quote : Char) : closeTriple? quote [] = none := rfl

theorem closeTriple?_lone : closeTriple? '"' ['\\'] = none := rfl

/-- In double quotes a backslash hides the character behind it. -/
theorem closeTriple?_hidden (c : Char) (rest : List Char) :
    closeTriple? '"' ('\\' :: c :: rest)
      = pushBefore '\\' (pushBefore c (closeTriple? '"' rest)) := rfl

/-- Three quotes close the string.  Up to two more are taken with them, for they belong to its
body. -/
theorem closeTriple?_close {quote c : Char} {rest behind : List Char}
    (hc : ¬ (c = '\\' ∧ quote = '"'))
    (ha : after? [quote, quote, quote] (c :: rest) = some behind) :
    closeTriple? quote (c :: rest)
      = some (quote :: quote :: quote :: (splitRun quote 2 behind).1,
        (splitRun quote 2 behind).2) := by
  cases rest <;>
    · refine (if_neg hc).trans ?_
      rw [ha]

/-- Any other character belongs to the string, so also one or two quotes alone. -/
theorem closeTriple?_char {quote c : Char} {rest : List Char} (hc : ¬ (c = '\\' ∧ quote = '"'))
    (ha : after? [quote, quote, quote] (c :: rest) = none) :
    closeTriple? quote (c :: rest) = pushBefore c (closeTriple? quote rest) := by
  cases rest <;>
    · refine (if_neg hc).trans ?_
      rw [ha]

/-- The cases of the search: the text is over, a character is hidden, the string is closed, or a
character belongs to the string. -/
theorem closeTriple_induction (quote : Char) {motive : List Char → Prop} (nil : motive [])
    (lone : quote = '"' → motive ['\\'])
    (hidden : ∀ c rest, quote = '"' → motive rest → motive ('\\' :: c :: rest))
    (close : ∀ c rest behind, ¬ (c = '\\' ∧ quote = '"') →
      after? [quote, quote, quote] (c :: rest) = some behind → motive (c :: rest))
    (char : ∀ c rest, ¬ (c = '\\' ∧ quote = '"') →
      after? [quote, quote, quote] (c :: rest) = none → motive rest → motive (c :: rest)) :
    ∀ text, motive text
  | [] => nil
  | [c] => by
    by_cases hc : c = '\\' ∧ quote = '"'
    · rw [hc.1]
      exact lone hc.2
    · cases ha : after? [quote, quote, quote] [c] with
      | none => exact char c [] hc ha nil
      | some behind => exact close c [] behind hc ha
  -- a hidden character takes two from the text, everything else one
  | c :: d :: rest => by
    by_cases hc : c = '\\' ∧ quote = '"'
    · rw [hc.1]
      exact hidden d rest hc.2 (closeTriple_induction quote nil lone hidden close char rest)
    · cases ha : after? [quote, quote, quote] (c :: d :: rest) with
      | none =>
        exact char c _ hc ha (closeTriple_induction quote nil lone hidden close char (d :: rest))
      | some behind => exact close c _ behind hc ha

/-! ## 2. What closes a string

The search gives back the text up to the last quote that it takes, and that text decides the search.
The induction is along the search; what has to be seen in each case is that no three quotes stand
earlier in another text than in this one.
-/

/-- The last character stays the last one behind another character. -/
theorem getLast?_cons_of_some {c d : Char} {text : List Char} (h : text.getLast? = some d) :
    (c :: text).getLast? = some d := by
  cases text with
  | nil => simp at h
  | cons e es => simpa [List.getLast?_cons_cons] using h

/-- What closes a multi-line string is a piece of the text that ends in a quote.  It has three
characters at least, which is what keeps three quotes from overlapping with what follows. -/
theorem closeTriple?_eq_some {quote : Char} {text body behind : List Char}
    (h : closeTriple? quote text = some (body, behind)) :
    text = body ++ behind ∧ body.getLast? = some quote ∧ 3 ≤ body.length := by
  induction text using closeTriple_induction quote generalizing body with
  | nil => simp [closeTriple?_nil] at h
  | lone hq =>
    subst hq
    simp [closeTriple?_lone] at h
  | hidden c rest hq ih =>
    subst hq
    obtain ⟨b, rfl, hb⟩ := pushBefore_eq_some (closeTriple?_hidden c rest ▸ h)
    obtain ⟨b', rfl, hb'⟩ := pushBefore_eq_some hb
    obtain ⟨rfl, hl, hn⟩ := ih hb'
    exact ⟨rfl, getLast?_cons_of_some (getLast?_cons_of_some hl), by simp; omega⟩
  | close c rest rest' hc ha =>
    rw [closeTriple?_close hc ha] at h
    simp only [Option.some.injEq, Prod.mk.injEq] at h
    obtain ⟨rfl, rfl⟩ := h
    refine ⟨?_, ?_, by simp⟩
    · rw [after?_eq_some_iff.mp ha]
      simp [splitRun_append]
    -- the last of the quotes that are taken with the three is a quote as well
    · have hmem (d : Char) (hd : d ∈ (splitRun quote 2 rest').1) := eq_of_mem_splitRun hd
      generalize (splitRun quote 2 rest').1 = run at hmem
      rcases List.eq_nil_or_concat run with rfl | ⟨init, d, rfl⟩
      · simp
      · obtain rfl := hmem d (by simp)
        simp only [List.getLast?_cons_cons, List.concat_eq_append]
        exact getLast?_cons_of_some (List.getLast?_concat ..)
  | char c rest hc ha ih =>
    obtain ⟨b, rfl, hb⟩ := pushBefore_eq_some (closeTriple?_char hc ha ▸ h)
    obtain ⟨rfl, hl, hn⟩ := ih hb
    exact ⟨rfl, getLast?_cons_of_some hl, by simp; omega⟩

/-- **A closed string stays closed.**  Whatever text goes on with the same character, the string
ends in it where it did.  The one character is needed because up to two quotes more are taken
with the three that close it. -/
theorem closeTriple?_congr {quote : Char} {text body behind other : List Char}
    (h : closeTriple? quote text = some (body, behind)) (ho : other.head? = behind.head?) :
    closeTriple? quote (body ++ other) = some (body, other) := by
  induction text using closeTriple_induction quote generalizing body with
  | nil => simp [closeTriple?_nil] at h
  | lone hq =>
    subst hq
    simp [closeTriple?_lone] at h
  | hidden c rest hq ih =>
    subst hq
    obtain ⟨b, rfl, hb⟩ := pushBefore_eq_some (closeTriple?_hidden c rest ▸ h)
    obtain ⟨b', rfl, hb'⟩ := pushBefore_eq_some hb
    simp [closeTriple?_hidden, ih hb', pushBefore]
  | close c rest rest' hc ha =>
    rw [closeTriple?_close hc ha] at h
    simp only [Option.some.injEq, Prod.mk.injEq] at h
    obtain ⟨rfl, rfl⟩ := h
    -- a quote is not the character that hides another
    have hq : ¬ (quote = '\\' ∧ quote = '"') := by
      rintro ⟨h1, h2⟩
      rw [h1] at h2
      exact absurd h2 (by decide)
    have ha' : after? [quote, quote, quote] (quote :: quote :: quote ::
        ((splitRun quote 2 rest').1 ++ other)) = some ((splitRun quote 2 rest').1 ++ other) := by
      simp [after?]
    simp only [List.cons_append]
    rw [closeTriple?_close hq ha', splitRun_congr ho]
  | char c rest hc ha ih =>
    obtain ⟨b, rfl, hb⟩ := pushBefore_eq_some (closeTriple?_char hc ha ▸ h)
    obtain ⟨rfl, -, hn⟩ := closeTriple?_eq_some hb
    -- three quotes at this place would lie within the string already
    have ha' : after? [quote, quote, quote] (c :: (b ++ other)) = none := by
      obtain ⟨d, e, b', rfl⟩ : ∃ d e b', b = d :: e :: b' := by
        rcases b with _ | ⟨d, _ | ⟨e, b'⟩⟩
        · simp at hn
        · simp at hn
        · exact ⟨d, e, b', rfl⟩
      simp only [List.cons_append, after?] at ha ⊢
      split <;> simp_all
    rw [List.cons_append, closeTriple?_char hc ha', ih hb]
    rfl

/-! ## 3. Whole multi-line strings

A multi-line string opens with three quotes, and its body is searched for three more.  Both halves
carry over to another text that begins with the same string.
-/

/-- What opens a multi-line string is three quotes of its kind. -/
theorem tripleQuote?_eq_some {text : List Char} {quote : Char}
    (h : tripleQuote? text = some quote) :
    ∃ rest, text = quote :: quote :: quote :: rest := by
  unfold tripleQuote? beginsWith at h
  split at h
  · next hb =>
    obtain ⟨rest, hr⟩ := Option.isSome_iff_exists.mp hb
    obtain rfl := Option.some.inj h
    exact ⟨rest, after?_eq_some_iff.mp hr⟩
  · split at h
    · next hb =>
      obtain ⟨rest, hr⟩ := Option.isSome_iff_exists.mp hb
      obtain rfl := Option.some.inj h
      exact ⟨rest, after?_eq_some_iff.mp hr⟩
    · simp at h

/-- Whether a multi-line string begins is seen from three characters. -/
theorem tripleQuote?_congr {a b c : Char} (rest other : List Char) :
    tripleQuote? (a :: b :: c :: rest) = tripleQuote? (a :: b :: c :: other) := by
  simp only [tripleQuote?, beginsWith, after?]
  repeat' split
  all_goals simp_all

/-- A multi-line string is a piece of the text: it opens with three quotes and ends in one. -/
theorem splitMultiline?_eq_some {text value behind : List Char}
    (h : splitMultiline? text = some (value, behind)) :
    text = value ++ behind ∧ (∃ quote, tripleQuote? text = some quote
      ∧ value.getLast? = some quote ∧ ∃ rest, value = quote :: quote :: quote :: rest) := by
  unfold splitMultiline? at h
  split at h
  · simp at h
  · next quote hq =>
    split at h
    · simp at h
    · next body behind' hb =>
      simp only [Option.some.injEq, Prod.mk.injEq] at h
      obtain ⟨rfl, rfl⟩ := h
      obtain ⟨rest, rfl⟩ := tripleQuote?_eq_some hq
      obtain ⟨hr, hl, -⟩ := closeTriple?_eq_some hb
      refine ⟨?_, quote, hq, ?_, body, rfl⟩
      · simpa using hr
      · exact getLast?_cons_of_some (getLast?_cons_of_some (getLast?_cons_of_some hl))

/-- **A multi-line string ends where it ends,** whatever stands behind the next character.  So
writing into later lines of a document does not change where an earlier string ends. -/
theorem splitMultiline?_congr {text value behind other : List Char}
    (h : splitMultiline? text = some (value, behind)) (ho : other.head? = behind.head?) :
    splitMultiline? (value ++ other) = some (value, other) := by
  unfold splitMultiline? at h
  split at h
  · simp at h
  · next quote hq =>
    split at h
    · simp at h
    · next body behind' hb =>
      simp only [Option.some.injEq, Prod.mk.injEq] at h
      obtain ⟨rfl, rfl⟩ := h
      obtain ⟨rest, rfl⟩ := tripleQuote?_eq_some hq
      have := closeTriple?_congr hb ho
      simp only [List.cons_append]
      rw [splitMultiline?, tripleQuote?_congr (body ++ other) rest, hq]
      simp [this]

end TomlKeep
