/-
# Blank characters and trimming

A text is a list of characters throughout the library.  Two notions of "blank" are in use and
they must not be mixed up:

* `isBlank`: the white space of Unicode, which is what may surround a key or a bare word;
* `isGap`: a space or a tab, the only white space that TOML knows inside a line.

`trim` takes blanks off both ends.  Nothing else is lost (`dropEnd_append_takeEnd`), and the last
character that is left is not blank (`getLast?_dropEnd`).
-/

namespace TomlKeep.Text

/-! ## 1. The two classes -/

/-- White space in the sense of Unicode: 25 characters. -/
def isBlank (c : Char) : Bool :=
  let n := c.toNat
  (9 ≤ n && n ≤ 13) || n == 0x20 || n == 0x85 || n == 0xA0 || n == 0x1680
    || (0x2000 ≤ n && n ≤ 0x200A) || n == 0x2028 || n == 0x2029 || n == 0x202F
    || n == 0x205F || n == 0x3000

/-- A space or a tab. -/
def isGap (c : Char) : Bool :=
  c == ' ' || c == '\t'

theorem isBlank_of_isGap {c : Char} (h : isGap c = true) : isBlank c = true := by
  simp only [isGap, Bool.or_eq_true, beq_iff_eq] at h
  rcases h with rfl | rfl <;> decide

/-! ## 2. Taking characters off the ends -/

/-- The text without its longest tail of characters in `p`. -/
def dropEnd (p : Char → Bool) : List Char → List Char
  | [] => []
  | c :: rest =>
    match dropEnd p rest with
    | [] => if p c then [] else [c]
    | d :: kept => c :: d :: kept

/-- The longest tail of characters in `p`. -/
def takeEnd (p : Char → Bool) (text : List Char) : List Char :=
  text.drop (dropEnd p text).length

/-- Nothing is lost when the tail is taken off. -/
theorem dropEnd_append_takeEnd (p : Char → Bool) :
    ∀ text, dropEnd p text ++ takeEnd p text = text
  | [] => rfl
  | c :: rest => by
    have ih := dropEnd_append_takeEnd p rest
    simp only [takeEnd] at ih ⊢
    simp only [dropEnd]
    cases h : dropEnd p rest with
    | nil => cases p c <;> simp
    | cons d kept => rw [h] at ih; simpa using ih

/-- The text without leading blanks. -/
def trimStart (text : List Char) : List Char :=
  text.dropWhile isBlank

/-- The text without trailing blanks. -/
def trimEnd (text : List Char) : List Char :=
  dropEnd isBlank text

/-- The text without leading and trailing blanks. -/
def trim (text : List Char) : List Char :=
  trimEnd (trimStart text)

/-- What `dropEnd` leaves is empty or ends outside the class. -/
theorem getLast?_dropEnd {p : Char → Bool} {d : Char} :
    ∀ {text}, (dropEnd p text).getLast? = some d → p d = false
  | [], h => by simp [dropEnd] at h
  | c :: rest, h => by
    have ih := @getLast?_dropEnd p d rest
    simp only [dropEnd] at h
    cases hr : dropEnd p rest with
    | nil =>
      rw [hr] at h
      by_cases hc : p c = true <;> simp [hc] at h
      simpa [← h] using hc
    | cons e kept =>
      rw [hr] at h ih
      exact ih (by simpa [List.getLast?_cons_cons] using h)

/-! ## 3. Splitting -/

/-- Puts a character in front of the first part of a split. -/
def pushBefore (c : Char) : Option (List Char × List Char) → Option (List Char × List Char)
  | none => none
  | some (before, suffix) => some (c :: before, suffix)

theorem pushBefore_eq_some {c : Char} {split : Option (List Char × List Char)}
    {before suffix : List Char} (h : pushBefore c split = some (before, suffix)) :
    ∃ tail, before = c :: tail ∧ split = some (tail, suffix) := by
  cases split with
  | none => simp [pushBefore] at h
  | some p =>
    simp [pushBefore] at h
    exact ⟨p.1, h.1.symm, by rw [← h.2]⟩

/-- The rest of a text behind a given beginning. -/
def after? : List Char → List Char → Option (List Char)
  | [], text => some text
  | _ :: _, [] => none
  | p :: ps, c :: rest => if p = c then after? ps rest else none

theorem after?_eq_some_iff {start text rest : List Char} :
    after? start text = some rest ↔ text = start ++ rest := by
  induction start generalizing text with
  | nil => simp [after?, eq_comm]
  | cons p ps ih =>
    cases text with
    | nil => simp [after?]
    | cons c tail =>
      by_cases hpc : p = c
      · simp [after?, hpc, ih]
      · simp [after?, hpc, Ne.symm hpc]

/-- Whether the text begins with `start`. -/
def beginsWith (start text : List Char) : Bool :=
  (after? start text).isSome

/-- Splits at the first character `sep`: what stands before it and what stands behind it. -/
def splitAtChar? (sep : Char) : List Char → Option (List Char × List Char)
  | [] => none
  | c :: rest =>
    if c = sep then some ([], rest) else pushBefore c (splitAtChar? sep rest)

end TomlKeep.Text
