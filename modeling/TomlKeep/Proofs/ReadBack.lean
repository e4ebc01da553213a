/-
# Literals are read back

The literal of a scalar is read as that scalar (`scalarOf?_literal?`), `null` and the floats that
are not finite apart: there is no text for the one, and the others are written `0`.  So scalars
that can be read have the same literal only if they are the same, or if both are written `0`
(`literal?_eq_iff`); and a date-time of an edited tree may hold any text at all, also the literal
of another scalar.
-/
import TomlKeep.Proofs.WrittenStrings
import TomlKeep.Proofs.FloatText
import TomlKeep.Proofs.Datetimes
import TomlKeep.Proofs.ReadTrees

namespace TomlKeep

open Text Toml

/-! ## 1. Reading a literal

A literal is a string in double quotes or a word.  Which of the two it is, is told by its first
character, and it is read by the readers of the grammar to its end.
-/

/-- Reads a literal: a string in double quotes, or a token. -/
def scalarOf? (literal : List Char) : Option Value :=
  if startsIn (· == '"') literal then
    (takeString? literal).bind fun (s, behind) => if behind = [] then some (.string s) else none
  else tokenValue? literal

/-- A word is no string. -/
theorem scalarOf?_word {literal : List Char} (hne : literal ≠ [])
    (hw : ∀ c ∈ literal, isWordChar c = true) : scalarOf? literal = tokenValue? literal := by
  obtain ⟨c, rest, rfl⟩ := List.exists_cons_of_ne_nil hne
  have hc : c ≠ '"' := isWordChar_ne (hw c (by simp)) (by decide)
  rw [scalarOf?, startsIn, if_neg (by simpa using hc)]

/-- The literal of a string is read as that string. -/
theorem scalarOf?_quote (text : List Char) :
    scalarOf? (quote text) = some (.string (String.ofList text)) := by
  have htake : takeString? (quote text ++ []) = some (String.ofList text, []) :=
    takeString?_quote text (by simp)
  rw [List.append_nil] at htake
  have hstart : startsIn (· == '"') (quote text) = true := rfl
  rw [scalarOf?, if_pos hstart, htake]
  rfl

/-- A literal that is no string is read as a token. -/
theorem scalarOf?_of_isLiteral {literal : List Char} (h : IsLiteral literal)
    (hs : literal.head? ≠ some '"') : scalarOf? literal = tokenValue? literal := by
  cases h with
  | quoted text => simp [quote] at hs
  | word hne hw => exact scalarOf?_word hne hw

/-- The value of the token that stands for a scalar is that scalar; each kind has its lemma in
the modules on numbers, floats and dates. -/
theorem tokenValue?_literal? {value : Value} {literal : List Char} (hp : value.isPlain = true)
    (hnull : value ≠ .null) (hs : ∀ s, value ≠ .string s) (h : value.literal? = some literal) :
    tokenValue? literal = some value := by
  cases value with
  | null => exact absurd rfl hnull
  | bool b =>
    obtain rfl := Option.some.inj h
    exact tokenValue?_boolText b
  | integer n =>
    obtain rfl := Option.some.inj h
    exact tokenValue?_decimalInt n
  | float x =>
    have hx : x.isFinite = true := hp
    rw [Value.literal?, if_pos hx] at h
    obtain rfl := Option.some.inj h
    exact tokenValue?_write hx
  | string s => exact absurd rfl (hs s)
  | datetime text =>
    obtain rfl := Option.some.inj h
    have hc : Datetime.canonical? text.toList = some text.toList := by
      simpa [Value.isPlain] using hp
    rw [tokenValue?_canonical hc, String.ofList_toList]
  | array | table => cases hp

/-- A literal that is read as a token holds no string. -/
theorem head?_ne_of_tokenValue? {literal : List Char} {value : Value}
    (hl : IsLiteral literal) (h : tokenValue? literal = some value) : literal.head? ≠ some '"' := by
  cases hl with
  | quoted text =>
    have hnone : tokenValue? (quote text) = none := by
      have hnumber : Numeral.read? (quote text) = none := rfl
      have hday : Datetime.canonical? (quote text) = none := by
        have htake (n : Nat) : Datetime.takeNumber? (n + 1) (quote text) = none := by
          simp [Datetime.takeNumber?, quote, Char.isDigit]
        simp [Datetime.canonical?, Datetime.read?, Datetime.takeDay?, Datetime.takeClock?, htake]
      rw [tokenValue?, if_neg (by simp [quote]), if_neg (by simp [quote]), hnumber, hday]
      rfl
    rw [hnone] at h
    cases h
  | word hne hw =>
    intro hq
    exact absurd (hw _ (List.mem_of_mem_head? hq)) (by decide)

/-- **The literal of a scalar is read as that scalar.**  So plain scalars with one literal are
one scalar, which is the heart of the comparison by literals. -/
theorem scalarOf?_literal? {value : Value} {literal : List Char} (hp : value.isPlain = true)
    (hnull : value ≠ .null) (h : value.literal? = some literal) :
    scalarOf? literal = some value := by
  by_cases hs : ∃ s, value = .string s
  · obtain ⟨s, rfl⟩ := hs
    obtain rfl := Option.some.inj h
    rw [scalarOf?_quote, String.ofList_toList]
  · have htoken := tokenValue?_literal? hp hnull (not_exists.mp hs) h
    have hliteral := isLiteral_of_literal? hp h
    rw [scalarOf?_of_isLiteral hliteral (head?_ne_of_tokenValue? hliteral htoken), htoken]

/-! ## 2. Scalars with the same literal

Since a literal gives back its scalar, a literal is shared only where this fails: by scalars that
are written `0` though they are no zero, and by date-times with a text that is none.  The first come
from a document, the second only from an edited tree.
-/

/-- A scalar that is written `0`: the integer zero, and the floats that are not finite. -/
def Value.IsWrittenZero : Value → Prop
  | .integer n => n = 0
  | .float x => x.isFinite = false
  | _ => False

/-- **Two scalars with the same literal,** though they may differ. -/
inductive Indistinct : Value → Value → Prop where
  | same (value : Value) : Indistinct value value
  | zero {old new : Value} : old.IsWrittenZero → new.IsWrittenZero → Indistinct old new
  | text {old : Value} {text : String} : old.literal? = some text.toList →
      Indistinct old (.datetime text)

/-- What is written zero has the literal `0`. -/
theorem literal?_of_isWrittenZero {value : Value} (h : value.IsWrittenZero) :
    value.literal? = some ['0'] := by
  cases value with
  | integer n =>
    obtain rfl : n = 0 := h
    rfl
  | float x =>
    have hx : x.isFinite = false := h
    simp [Value.literal?, hx]
  | _ => exact absurd h id

/-- That literal is read as the integer. -/
theorem scalarOf?_zero : scalarOf? ['0'] = some (.integer 0) := by rfl

/-- The literal of `null` is read as nothing. -/
theorem scalarOf?_null : scalarOf? ['n', 'u', 'l', 'l'] = none := by rfl

/-- A scalar that can be read is plain, or a float that is not finite. -/
theorem isPlain_of_isRead {value : Value} (h : value.IsRead) :
    (value.isPlain = true ∧ value ≠ .null) ∨ value.IsWrittenZero := by
  cases value with
  | null | array | table => exact absurd h id
  | float x =>
    cases hx : x.isFinite with
    | true => exact .inl ⟨hx, by simp⟩
    | false => exact .inr hx
  | datetime text =>
    obtain ⟨source, hs⟩ := h
    exact .inl ⟨by simpa [Value.isPlain] using Datetime.canonical?_idem hs, by simp⟩
  | bool | integer | string => exact .inl ⟨rfl, by simp⟩

/-- What is read from the literal of a scalar: the scalar, or zero. -/
theorem scalarOf?_of_isRead {value : Value} {literal : List Char} (h : value.IsRead)
    (hl : value.literal? = some literal) : scalarOf? literal = some value
      ∨ (value.IsWrittenZero ∧ scalarOf? literal = some (.integer 0)) := by
  rcases isPlain_of_isRead h with ⟨hp, hnull⟩ | hz
  · exact .inl (scalarOf?_literal? hp hnull hl)
  · obtain rfl : ['0'] = literal := Option.some.inj ((literal?_of_isWrittenZero hz).symm.trans hl)
    exact .inr ⟨hz, scalarOf?_zero⟩

/-- **Two scalars have the same literal** if they are the same, if both are written `0`, or if
the second is a date-time with the literal of the first for its text.  Of the first it is asked
that it can be read; the second is any scalar. -/
theorem literal?_eq_iff {old new : Value} (ho : old.IsRead) (hn : new.isScalar = true) :
    old.literal? = new.literal? ↔ Indistinct old new := by
  constructor
  · intro h
    have hos : old.isScalar = true := by cases old <;> first | rfl | exact absurd ho id
    obtain ⟨literal, hl⟩ := isScalar_iff_literal?.mp hos
    have hread := scalarOf?_of_isRead ho hl
    -- a date-time may have any text; the other scalars are read back
    by_cases hd : ∃ text, new = .datetime text
    · obtain ⟨text, rfl⟩ := hd
      exact .text h
    · rw [hl] at h
      -- the shared literal is read: as zero, as nothing, or as the new scalar
      by_cases hz : new.IsWrittenZero
      · obtain rfl : ['0'] = literal :=
          Option.some.inj ((literal?_of_isWrittenZero hz).symm.trans h.symm)
        rw [scalarOf?_zero] at hread
        rcases hread with he | ⟨hoz, -⟩
        · obtain rfl := Option.some.inj he
          exact .zero rfl hz
        · exact .zero hoz hz
      · by_cases hnull : new = .null
        · subst hnull
          obtain rfl := Option.some.inj h
          rw [scalarOf?_null] at hread
          rcases hread with he | ⟨-, he⟩ <;> cases he
        · have hp : new.isPlain = true := by
            cases new with
            | float x => simpa [Value.IsWrittenZero, Value.isPlain] using hz
            | datetime text => exact absurd ⟨text, rfl⟩ hd
            | array | table => cases hn
            | _ => rfl
          rw [scalarOf?_literal? hp hnull h.symm] at hread
          rcases hread with he | ⟨hoz, he⟩
          · obtain rfl := Option.some.inj he
            exact .same _
          · obtain rfl := Option.some.inj he
            exact absurd rfl hz
  · intro h
    cases h with
    | same => rfl
    | zero h1 h2 => rw [literal?_of_isWrittenZero h1, literal?_of_isWrittenZero h2]
    | text h => exact h

end TomlKeep
